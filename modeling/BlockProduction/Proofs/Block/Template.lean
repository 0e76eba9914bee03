import BlockProduction.Proofs.Block.Validity
import BlockProduction.Proofs.Hash.Merkle

/-!
# Templates that pass

Main statements: a template passes all checks exactly if it is valid, which is
said with unbounded sums and with positions and without the checks; and
templates of the same length that commit to the same root have the same hashes,
unless strings that were digested for their roots collide.
-/

namespace BlockProduction.Template

variable {t t' : Template} {limits : Limits} {halvingInterval : UInt32}

/-- The fees of all transactions. -/
def feeTotal (t : Template) : Nat :=
  (t.transactions.map fun tx => tx.fee.toNat).sum

/-- The rules that hold of a template, whoever built it. -/
structure Valid (t : Template) (limits : Limits) (halvingInterval : UInt32) : Prop where
  weight_le : t.totalWeight ≤ limits.maxWeight
  sigopCost_le : t.totalSigopCost ≤ limits.maxSigopCost
  distinct : (t.transactions.map (·.hash)).Nodup
  /-- A transaction stands behind all those whose outputs it spends. -/
  ordered : ∀ (i j : Nat) (tx other : Candidate) (input : TxInput), t.transactions[i]? = some tx →
    t.transactions[j]? = some other → input ∈ tx.inputs → input.prevout.hash = other.hash → j < i
  fits : subsidyAt t.height.toNat halvingInterval.toNat + t.feeTotal < 2 ^ 64
  totalFees_eq : t.totalFees.toNat = t.feeTotal
  value_eq : t.coinbase.value.toNat =
    subsidyAt t.height.toNat halvingInterval.toNat + t.feeTotal
  commits : Merkle.RootOf (t.coinbase.hash :: t.transactions.map (·.hash)) t.header.merkleRoot

theorem checkMerkleRoot_eq_ok_iff_rootOf : t.checkMerkleRoot = .ok () ↔
    Merkle.RootOf (t.coinbase.hash :: t.transactions.map (·.hash)) t.header.merkleRoot := by
  rw [checkMerkleRoot_eq_ok_iff, Merkle.rootOf_iff (List.cons_ne_nil _ _)]
  rfl

/-- All checks together accept the valid templates and no others. -/
theorem validate_exactly (t : Template) (limits : Limits) (halvingInterval : UInt32) :
    t.validate limits halvingInterval = .ok () ↔ t.Valid limits halvingInterval := by
  rw [validate_eq_ok_iff, checkLimits_eq_ok_iff, checkDistinct_eq_ok_iff, checkOrder_eq_ok_iff,
    checkCoinbase_eq_ok_iff, checkMerkleRoot_eq_ok_iff_rootOf, toNat_blockSubsidy]
  constructor
  · rintro ⟨⟨hweight, hsigops⟩, hdistinct, hordered, ⟨hfees, hvalue⟩, hcommits⟩
    rw [hfees] at hvalue
    exact
      { weight_le := hweight
        sigopCost_le := hsigops
        distinct := hdistinct
        ordered := fun _ _ _ _ _ hi hj hinput hspent => hordered hi hj hinput hspent.symm
        fits := by
          rw [feeTotal, ← hvalue]
          exact t.coinbase.value.toNat_lt
        totalFees_eq := hfees
        value_eq := hvalue
        commits := hcommits }
  · intro h
    refine ⟨⟨h.weight_le, h.sigopCost_le⟩, h.distinct, ?_, ⟨h.totalFees_eq, ?_⟩, h.commits⟩
    · intro i j tx other input hi hj hinput hspent
      exact h.ordered i j tx other input hi hj hinput hspent.symm
    · rw [h.totalFees_eq]
      exact h.value_eq

/-! ## Commitments -/

/-- Templates that commit to one root agree in all hashes, but for a collision. -/
theorem orderedHashes_eq_or_collision (hlength : t.transactions.length = t'.transactions.length)
    (hroot : t.header.merkleRoot = t'.header.merkleRoot) (h : t.checkMerkleRoot = .ok ())
    (h' : t'.checkMerkleRoot = .ok ()) : t.orderedHashes = t'.orderedHashes ∨
      ∃ x y, Merkle.Collision t.orderedHashes t'.orderedHashes x y := by
  have hlengths : t.orderedHashes.length = t'.orderedHashes.length := by
    simp [orderedHashes, selectedHashes, hlength]
  rw [checkMerkleRoot_eq_ok_iff] at h h'
  exact Merkle.eq_or_collision hlengths (by rw [← h, ← h', hroot])

/-- A root binds a list among the lists of its length, but for a collision that is read off the two
computations.  So a template that still commits to its root, after its coinbase or its
transactions were exchanged for as many, has the same hashes as before, or there is a collision. -/
theorem commitment_binds :
    (∀ as bs : List Hash256, as.length = bs.length → Merkle.root as = Merkle.root bs →
      as = bs ∨ ∃ x y, Merkle.Collision as bs x y) ∧
    ∀ t t' : Template, t.transactions.length = t'.transactions.length →
      t.header.merkleRoot = t'.header.merkleRoot → t.checkMerkleRoot = .ok () →
      t'.checkMerkleRoot = .ok () →
      (t.coinbase.hash = t'.coinbase.hash ∧ t.selectedHashes = t'.selectedHashes) ∨
        ∃ x y, Merkle.Collision t.orderedHashes t'.orderedHashes x y := by
  refine ⟨fun _ _ => Merkle.eq_or_collision, ?_⟩
  intro t t' hlength hroot h h'
  rcases orderedHashes_eq_or_collision hlength hroot h h' with hhashes | hcollision
  · exact .inl (List.cons.inj hhashes)
  · exact .inr hcollision

/-- Two transactions behind a coinbase, an odd level. -/
def committedTemplate : Template :=
  let tx : Candidate := default
  let txs := [{ tx with hash := .fill 1 }, { tx with hash := .fill 2 }]
  let coinbase : Coinbase := ⟨300, 0, [], 7⟩
  { (default : Template) with
    coinbase
    transactions := txs
    header := { (default : Header) with
      merkleRoot := Merkle.root (coinbase.hash :: txs.map (·.hash)) } }

/-- A template whose header has a solution. -/
def withSolution (t : Template) (solution : Bytes) : Template :=
  { t with header := { t.header with solution } }

theorem commitment_binds_withSolution :
    let t := committedTemplate
    let t' := t.withSolution [1, 2, 3]
    (t.orderedHashes.length = t'.orderedHashes.length ∧
      Merkle.root t.orderedHashes = Merkle.root t'.orderedHashes ∧
      (t.orderedHashes = t'.orderedHashes ∨
        ∃ x y, Merkle.Collision t.orderedHashes t'.orderedHashes x y)) ∧
    t.transactions.length = t'.transactions.length ∧
      t.header.merkleRoot = t'.header.merkleRoot ∧ t.checkMerkleRoot = .ok () ∧
      t'.checkMerkleRoot = .ok () ∧
      ((t.coinbase.hash = t'.coinbase.hash ∧ t.selectedHashes = t'.selectedHashes) ∨
        ∃ x y, Merkle.Collision t.orderedHashes t'.orderedHashes x y) := by
  intro t t'
  -- said of any template, so that no root is computed
  have hkept : ∀ t : Template, t.orderedHashes = (t.withSolution [1, 2, 3]).orderedHashes ∧
      t.transactions.length = (t.withSolution [1, 2, 3]).transactions.length ∧
      t.header.merkleRoot = (t.withSolution [1, 2, 3]).header.merkleRoot := fun _ => ⟨rfl, rfl, rfl⟩
  obtain ⟨hhashes, hcount, hcommitted⟩ := hkept t
  have hlength := congrArg List.length hhashes
  have hroot := congrArg Merkle.root hhashes
  have h : t.header.merkleRoot = Merkle.root t.orderedHashes := rfl
  have h' : t'.header.merkleRoot = Merkle.root t'.orderedHashes := by
    rw [← hcommitted, h, hroot]
  rw [← checkMerkleRoot_eq_ok_iff] at h h'
  obtain ⟨hlists, htemplates⟩ := commitment_binds
  exact ⟨⟨hlength, hroot, hlists _ _ hlength hroot⟩, hcount, hcommitted, h, h',
    htemplates t t' hcount hcommitted h h'⟩

end BlockProduction.Template

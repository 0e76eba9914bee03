import BlockProduction.Block.Validity
import BlockProduction.Proofs.Block.Subsidy

/-!
# The rules of templates

Each rule of a template passes exactly if what it stands for holds.
-/

namespace BlockProduction

/-- A checked sum over a list is the exact one, if there is one. -/
theorem foldlM_addChecked_eq_some_iff {txs : List Candidate} {start sum : UInt64} :
    txs.foldlM (fun sum tx => addChecked sum tx.fee) start = some sum ↔
      sum.toNat = start.toNat + (txs.map fun tx => tx.fee.toNat).sum := by
  induction txs generalizing start with
  | nil =>
      rw [List.foldlM_nil, List.map_nil, List.sum_nil, Nat.add_zero]
      exact ⟨fun h => by rw [Option.some.inj h], fun h => by rw [UInt64.toNat_inj.mp h]; rfl⟩
  | cons tx txs ih =>
      rw [List.foldlM_cons, List.map_cons, List.sum_cons, ← Nat.add_assoc]
      cases hfirst : addChecked start tx.fee with
      | some next =>
          rw [← addChecked_eq_some_iff.mp hfirst]
          exact ih
      | none =>
          have hover : ¬start.toNat + tx.fee.toNat ≤ maxWord := by
            intro hle
            simp [addChecked, hle] at hfirst
          have hlt := sum.toNat_lt
          simp only [maxWord] at hover
          simp only [Option.bind_eq_bind, Option.bind_none, reduceCtorEq, false_iff]
          omega

/-! ## Finalizing -/

/-- What a finalized template takes over from its draft. -/
structure Draft.Finalizes (draft : Draft) (terms : CoinbaseTerms) (t : Template) : Prop where
  height_eq : t.height = draft.context.targetHeight
  transactions_eq : t.transactions = draft.transactions
  totalWeight_eq : t.totalWeight = draft.usage.weight
  totalSigopCost_eq : t.totalSigopCost = draft.usage.sigopCost
  totalFees_eq : t.totalFees = draft.usage.fees
  value_eq : t.coinbase.value.toNat =
    (blockSubsidy t.height terms.halvingInterval).toNat + draft.usage.fees.toNat
  merkleRoot_eq : t.header.merkleRoot = Merkle.root t.orderedHashes

theorem Draft.finalizes_of_fits (draft : Draft) (terms : CoinbaseTerms)
    (h : initialSubsidy + draft.usage.fees.toNat ≤ maxWord) :
    ∃ t, draft.finalize terms = .ok t ∧ draft.Finalizes terms t := by
  have hsubsidy := blockSubsidy_le draft.context.targetHeight terms.halvingInterval
  unfold finalize
  cases hvalue : addChecked (blockSubsidy draft.context.targetHeight terms.halvingInterval)
      draft.usage.fees with
  | none =>
      unfold addChecked at hvalue
      rw [if_pos (by omega)] at hvalue
      contradiction
  | some value =>
      simp only [hvalue]
      refine ⟨_, rfl, rfl, rfl, rfl, rfl, rfl, ?_, rfl⟩
      exact addChecked_eq_some_iff.mp hvalue

/-! ## The rules -/

namespace Template

variable {t : Template} {limits : Limits} {halvingInterval : UInt32}

theorem checkLimits_eq_ok_iff : t.checkLimits limits = .ok () ↔
    t.totalWeight ≤ limits.maxWeight ∧ t.totalSigopCost ≤ limits.maxSigopCost := by
  unfold checkLimits
  rw [← UInt64.not_lt, ← UInt64.not_lt, ← not_or]
  split
  · rename_i hover
    simp [hover]
  · rename_i hfits
    simp [hfits]

theorem firstRepeated?_eq_none_iff {seen hashes : List Hash256} :
    firstRepeated? seen hashes = none ↔ hashes.Nodup ∧ ∀ h ∈ hashes, h ∉ seen := by
  induction hashes generalizing seen with
  | nil => simp [firstRepeated?]
  | cons h rest ih =>
      unfold firstRepeated?
      by_cases hseen : h ∈ seen
      · simp [hseen]
      · rw [if_neg (by simpa using hseen), ih, List.nodup_cons]
        constructor
        · rintro ⟨hnodup, hfresh⟩
          refine ⟨⟨fun hin => hfresh h hin (by simp), hnodup⟩, ?_⟩
          intro other hother
          rcases List.mem_cons.mp hother with rfl | hother
          · exact hseen
          · exact fun hin => hfresh other hother (List.mem_cons_of_mem h hin)
        · rintro ⟨⟨hnot, hnodup⟩, hfresh⟩
          refine ⟨hnodup, ?_⟩
          intro other hother hin
          rcases List.mem_cons.mp hin with rfl | hin
          · exact hnot hother
          · exact hfresh other (List.mem_cons_of_mem h hother) hin

theorem checkDistinct_eq_ok_iff : t.checkDistinct = .ok () ↔ t.selectedHashes.Nodup := by
  have hfirst : firstRepeated? [] t.selectedHashes = none ↔ t.selectedHashes.Nodup := by
    rw [firstRepeated?_eq_none_iff]
    simp
  rw [← hfirst]
  unfold checkDistinct
  cases firstRepeated? [] t.selectedHashes with
  | none => simp
  | some h => simp

/-- Nobody spends a transaction of the same position or a later one. -/
def Ordered (txs : List Candidate) : Prop :=
  ∀ {i j : Nat} {tx other : Candidate} {input : TxInput}, txs[i]? = some tx →
    txs[j]? = some other → input ∈ tx.inputs → other.hash = input.prevout.hash → j < i

theorem ordered_cons_iff {tx : Candidate} {rest : List Candidate} : Ordered (tx :: rest) ↔
    (∀ input ∈ tx.inputs, ∀ other ∈ tx :: rest, other.hash ≠ input.prevout.hash) ∧
      Ordered rest := by
  constructor
  · intro h
    refine ⟨?_, ?_⟩
    · intro input hinput other hother hspent
      obtain ⟨j, hj⟩ := List.getElem?_of_mem hother
      exact Nat.not_lt_zero j (h List.getElem?_cons_zero hj hinput hspent)
    · intro i j later other input hi hj hinput hspent
      have hlt : j + 1 < i + 1 := by
        refine h ?_ ?_ hinput hspent
        · rwa [List.getElem?_cons_succ]
        · rwa [List.getElem?_cons_succ]
      omega
  · rintro ⟨hfirst, hrest⟩ i j later other input hi hj hinput hspent
    cases i with
    | zero =>
        rw [List.getElem?_cons_zero] at hi
        cases hi
        exact absurd hspent (hfirst input hinput other (List.mem_of_getElem? hj))
    | succ i =>
        rw [List.getElem?_cons_succ] at hi
        cases j with
        | zero => exact Nat.succ_pos i
        | succ j =>
            rw [List.getElem?_cons_succ] at hj
            exact Nat.succ_lt_succ (hrest hi hj hinput hspent)

theorem firstMisordered?_eq_none_iff {txs : List Candidate} :
    firstMisordered? txs = none ↔ Ordered txs := by
  induction txs with
  | nil => simp [firstMisordered?, Ordered]
  | cons tx rest ih =>
      have hfind : (tx.inputs.find? fun input =>
          (tx :: rest).any fun other => other.hash = input.prevout.hash) = none ↔
          ∀ input ∈ tx.inputs, ∀ other ∈ tx :: rest, other.hash ≠ input.prevout.hash := by
        simp only [List.find?_eq_none, List.any_eq_true, decide_eq_true_eq, not_exists, not_and,
          ne_eq]
      rw [ordered_cons_iff, ← hfind, ← ih, firstMisordered?]
      cases tx.inputs.find? fun input =>
          (tx :: rest).any fun other => other.hash = input.prevout.hash with
      | none => simp
      | some input => simp

theorem checkOrder_eq_ok_iff : t.checkOrder = .ok () ↔ Ordered t.transactions := by
  rw [← firstMisordered?_eq_none_iff]
  unfold checkOrder
  cases firstMisordered? t.transactions with
  | none => simp
  | some pair => simp

theorem feeSum?_eq_some_iff {fees : UInt64} :
    t.feeSum? = some fees ↔ fees.toNat = (t.transactions.map fun tx => tx.fee.toNat).sum := by
  rw [feeSum?, foldlM_addChecked_eq_some_iff, UInt64.toNat_zero, Nat.zero_add]

theorem checkCoinbase_eq_ok_iff : t.checkCoinbase halvingInterval = .ok () ↔
    t.totalFees.toNat = (t.transactions.map fun tx => tx.fee.toNat).sum ∧
    t.coinbase.value.toNat =
      (blockSubsidy t.height halvingInterval).toNat + t.totalFees.toNat := by
  rw [← feeSum?_eq_some_iff, ← addChecked_eq_some_iff]
  unfold checkCoinbase
  cases t.feeSum? with
  | none => simp
  | some fees =>
      by_cases hfees : t.totalFees = fees
      · rw [← hfees]
        cases hsum : addChecked (blockSubsidy t.height halvingInterval) t.totalFees with
        | none => simp [hsum]
        | some expected =>
            by_cases hvalue : t.coinbase.value = expected
            · simp [hsum, hvalue]
            · simp [hsum, hvalue, Ne.symm hvalue]
      · have hother : fees ≠ t.totalFees := Ne.symm hfees
        cases hsum : addChecked (blockSubsidy t.height halvingInterval) fees with
        | none => simp [hsum, hother]
        | some expected => simp [hsum, hfees, hother]

theorem checkMerkleRoot_eq_ok_iff : t.checkMerkleRoot = .ok () ↔
    t.header.merkleRoot = Merkle.root t.orderedHashes := by
  unfold checkMerkleRoot
  by_cases h : Merkle.root t.orderedHashes = t.header.merkleRoot
  · simp [h]
  · simp [h, Ne.symm h]

theorem validate_eq_ok_iff : t.validate limits halvingInterval = .ok () ↔
    t.checkLimits limits = .ok () ∧ t.checkDistinct = .ok () ∧ t.checkOrder = .ok () ∧
      t.checkCoinbase halvingInterval = .ok () ∧ t.checkMerkleRoot = .ok () := by
  unfold validate
  cases t.checkLimits limits <;> cases t.checkDistinct <;> cases t.checkOrder <;>
    cases t.checkCoinbase halvingInterval <;> simp [bind, Except.bind]

end Template

end BlockProduction

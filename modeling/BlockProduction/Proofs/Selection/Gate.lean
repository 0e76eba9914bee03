import BlockProduction.Proofs.Finality.Rules
import BlockProduction.Proofs.Selection.Outcome

/-!
# The gate on a growing chain

The gate judges a transaction by its lock time and by each of its inputs on its
own.  Outputs of candidates count as confirmed in the block itself, so that they
move along when the block moves up the chain.  All that can lock an input that
spends one is its own length, unless the lock is one of time that runs over its
word, and it does so all the more behind a later tip.

Main statement: a transaction that the gate admits is admitted above every later
tip, as long as the confirmations of the outputs that it spends stay as they are.
-/

namespace BlockProduction

section

variable {α β : Type} {f : α → Option β} {as : List α} {bs : List β}

/-- What relates entries to what they are looked up as can be said entry by entry. -/
theorem forall₂_iff_of_lookup {R : α → β → Prop}
    (h : List.Forall₂ (fun a b => f a = some b) as bs) :
    List.Forall₂ R as bs ↔ ∀ a ∈ as, ∃ b, f a = some b ∧ R a b := by
  induction h with
  | nil => simp
  | cons hfirst _ ih => simp [List.forall₂_cons, ih, hfirst]

theorem forall_mem_iff_of_lookup {P : β → Prop}
    (h : List.Forall₂ (fun a b => f a = some b) as bs) :
    (∀ b ∈ bs, P b) ↔ ∀ a ∈ as, ∃ b, f a = some b ∧ P b := by
  induction h with
  | nil => simp
  | cons hfirst _ ih => simp [ih, hfirst]

end

/-! ## Input by input -/

namespace Finality

/-- By its confirmation, an output may be spent by an input of a transaction: it is not locked where
locks count, and it is no young reward where rewards are known to be spent. -/
structure Spendable (tx : Candidate) (flags : LockFlags) (height : UInt32) (tipTime : Int64)
    (input : TxInput) (c : Confirmation) : Prop where
  unlocked : Enforces tx flags → (inputLock input c).passed height tipTime = true
  mature : tx.spendsCoinbase = true → Mature height c

end Finality

namespace RoundSetting

open Finality

variable {s : RoundSetting} {tx : Candidate} {input : TxInput} {c : Confirmation}

theorem gate?_eq_none_iff : s.gate? tx = none ↔
    LockTimePassed tx s.context.targetHeight (s.context.cutoff s.selector.flags) ∧
    0 ≤ s.context.tip.medianTimePast.toInt ∧
    ∀ input ∈ tx.inputs, ∃ c, s.confirmation? input = some c ∧
      Spendable tx s.selector.flags s.context.targetHeight s.context.tip.medianTimePast input
        c := by
  unfold gate?
  cases hinputs : tx.inputs.mapM s.confirmation? with
  | none =>
      obtain ⟨input, hinput, hmissing⟩ := mapM_eq_none_iff.mp hinputs
      simp only [reduceCtorEq, false_iff]
      rintro ⟨-, -, hall⟩
      obtain ⟨c, hc, -⟩ := hall input hinput
      rw [hmissing] at hc
      nomatch hc
  | some confirmations =>
      have hlookup := mapM_eq_some_iff.mp hinputs
      simp only [Option.map_eq_none_iff]
      rw [failure?_eq_none_iff, isFinal_iff, locksPassed_iff_each, immature?_eq_none_iff]
      constructor
      · rintro ⟨hfinal, ⟨htip, hlocks⟩, hmature⟩
        refine ⟨hfinal, htip, (forall₂_iff_of_lookup hlookup).mp ?_⟩
        refine List.forall₂_iff_zip.mpr ⟨hlookup.length_eq, fun hpair => ⟨fun hcount => ?_,
          fun hspends => ?_⟩⟩
        · exact hlocks hcount _ _ hpair
        · exact hmature hspends _ (List.of_mem_zip hpair).2
      · rintro ⟨hfinal, htip, hall⟩
        refine ⟨hfinal, ⟨htip, fun hcount input c hpair => ?_⟩, fun hspends => ?_⟩
        · have hspendable := (forall₂_iff_of_lookup hlookup).mpr hall
          exact ((List.forall₂_iff_zip.mp hspendable).2 hpair).unlocked hcount
        · refine (forall_mem_iff_of_lookup hlookup).mpr fun input hinput => ?_
          obtain ⟨c, hc, hspendable⟩ := hall input hinput
          exact ⟨c, hc, hspendable.mature hspends⟩

end RoundSetting

/-! ## Later contexts -/

/-- The height of the block stays at the end of the range. -/
theorem ChainTip.toNat_targetHeight (tip : ChainTip) :
    tip.targetHeight.toNat = min (tip.height.toNat + 1) 0xffffffff := by
  have hlt := tip.height.toNat_lt
  unfold targetHeight
  by_cases hlast : tip.height = 0xffffffff
  · rw [if_pos hlast, hlast]
    rfl
  · have hne : tip.height.toNat ≠ 0xffffffff := fun heq => hlast (UInt32.toNat_inj.mp heq)
    rw [if_neg hlast, UInt32.toNat_add, UInt32.toNat_one]
    omega

/-- A context that is not behind another one: its tip is at no lower height and no earlier time, and
the block above it is not older. -/
structure RoundContext.Precedes (earlier later : RoundContext) : Prop where
  height_le : earlier.tip.height ≤ later.tip.height
  medianTimePast_le : earlier.tip.medianTimePast ≤ later.tip.medianTimePast
  blockTime_le : earlier.blockTime ≤ later.blockTime

namespace RoundContext.Precedes

variable {earlier later : RoundContext} (h : earlier.Precedes later)
include h

theorem targetHeight_le : earlier.targetHeight.toNat ≤ later.targetHeight.toNat := by
  have hheight := UInt32.le_iff_toNat_le.mp h.height_le
  rw [targetHeight, targetHeight, ChainTip.toNat_targetHeight, ChainTip.toNat_targetHeight]
  omega

theorem cutoff_le (flags : LockFlags) : earlier.cutoff flags ≤ later.cutoff flags := by
  unfold cutoff
  split
  · exact h.medianTimePast_le
  · exact h.blockTime_le

end RoundContext.Precedes

namespace Finality

variable {tx : Candidate} {flags : LockFlags} {input : TxInput} {c : Confirmation}
  {points : LockPoints} {height height' : UInt32} {tipTime tipTime' cutoff cutoff' : Int64}

theorem LockTimePassed.mono (h : LockTimePassed tx height cutoff)
    (hheight : height.toNat ≤ height'.toNat) (hcutoff : cutoff ≤ cutoff') :
    LockTimePassed tx height' cutoff' := by
  rcases h with hzero | hclock | hsequences
  · exact .inl hzero
  · refine .inr (.inl ?_)
    by_cases hkind : tx.lockTime.toNat < 500000000
    · rw [if_pos hkind] at hclock ⊢
      exact Nat.lt_of_lt_of_le hclock hheight
    · rw [if_neg hkind] at hclock ⊢
      exact lt_of_lt_of_le hclock (Int64.le_iff_toInt_le.mp hcutoff)
  · exact .inr (.inr hsequences)

theorem LockPoints.passed_mono (h : points.passed height tipTime = true)
    (hheight : height.toNat ≤ height'.toNat) (htime : tipTime ≤ tipTime') :
    points.passed height' tipTime' = true := by
  have htime : tipTime.toInt ≤ tipTime'.toInt := Int64.le_iff_toInt_le.mp htime
  rw [passed_iff] at h ⊢
  omega

/-- For a confirmation that stays, what may be spent may be spent later. -/
theorem Spendable.mono (h : Spendable tx flags height tipTime input c)
    (hheight : height.toNat ≤ height'.toNat) (htime : tipTime ≤ tipTime') :
    Spendable tx flags height' tipTime' input c where
  unlocked hcount := LockPoints.passed_mono (h.unlocked hcount) hheight htime
  mature hspends hcoinbase := Nat.le_trans (h.mature hspends hcoinbase) hheight

/-- An output that counts as confirmed in the block itself is free where the lock has no length, and
where the lock is one of time and runs over. -/
theorem passed_own_iff (htip : 0 ≤ tipTime.toInt) :
    (inputLock input ⟨height, tipTime, false⟩).passed height tipTime = true ↔
      (HasLock input → lockLength input = 0 ∨
        LocksTime input ∧ 2 ^ 63 ≤ tipTime.toInt + 512 * lockLength input - 1) := by
  have hword := tipTime.toInt_lt
  have hlength := lockLength_lt input
  obtain ⟨hheight, htime⟩ := toInt_inputLock input ⟨height, tipTime, false⟩
  rw [passed_iff, hheight, htime]
  by_cases hlock : HasLock input
  · by_cases hkind : LocksTime input
    · simp only [hlock, hkind, not_true, and_false, if_false, and_self, if_true, forall_const,
        true_and, Int.bmod_def]
      omega
    · simp only [hlock, hkind, not_false_eq_true, and_self, if_true, and_false, if_false,
        forall_const, false_and, or_false]
      omega
  · simp only [hlock, false_and, if_false, false_imp_iff, iff_true]
    omega

/-- An output that counts as confirmed in the block itself stays free in every later block. -/
theorem Spendable.own_mono (h : Spendable tx flags height tipTime input ⟨height, tipTime, false⟩)
    (htip : 0 ≤ tipTime.toInt) (htime : tipTime ≤ tipTime') :
    Spendable tx flags height' tipTime' input ⟨height', tipTime', false⟩ := by
  have htime : tipTime.toInt ≤ tipTime'.toInt := Int64.le_iff_toInt_le.mp htime
  refine ⟨fun hcount => ?_, fun _ hcoinbase => nomatch hcoinbase⟩
  refine (passed_own_iff (htip.trans htime)).mpr fun hlock => ?_
  rcases (passed_own_iff htip).mp (h.unlocked hcount) hlock with hlength | ⟨hkind, hover⟩
  · exact .inl hlength
  · exact .inr ⟨hkind, by omega⟩

end Finality

/-- Whoever the gate admits is admitted above every later tip. -/
theorem RoundSetting.gate_stays_open (s : RoundSetting) {later : RoundContext}
    (h : s.context.Precedes later) {tx : Candidate} (hgate : s.gate? tx = none) :
    RoundSetting.gate? { s with context := later } tx = none := by
  obtain ⟨hfinal, htip, hall⟩ := gate?_eq_none_iff.mp hgate
  refine gate?_eq_none_iff.mpr ⟨hfinal.mono h.targetHeight_le (h.cutoff_le _),
    le_trans htip (Int64.le_iff_toInt_le.mp h.medianTimePast_le), fun input hinput => ?_⟩
  obtain ⟨c, hc, hspendable⟩ := hall input hinput
  unfold confirmation? at hc ⊢
  by_cases hknown : (s.graph.idOf? input.prevout.hash).isSome = true
  · rw [if_pos hknown] at hc ⊢
    cases hc
    exact ⟨_, rfl, hspendable.own_mono htip h.medianTimePast_le⟩
  · rw [if_neg hknown] at hc ⊢
    exact ⟨c, hc, hspendable.mono h.targetHeight_le h.medianTimePast_le⟩

/-! ## A child that has just come free -/

/-- A child of a candidate with two more inputs, one locked for ten blocks and one for two units of
time. -/
def patientTx : Candidate :=
  ⟨⟨2⟩, 2, 1000, 800, 4,
    [⟨⟨⟨1⟩, 0⟩, 0⟩, ⟨⟨⟨9⟩, 0⟩, 10⟩, ⟨⟨⟨9⟩, 1⟩, 0x00400002⟩], 100, true⟩

/-- The block is the first one that may have the child, whose parent waits for the same block. -/
def patientRound : RoundSetting :=
  { selector := default
    graph :=
      { size := 1
        txs := .replicate 1 ⟨⟨1⟩, 2, 1000, 800, 4, [], 0, false⟩
        ancestors := .replicate 1 []
        descendants := .replicate 1 [] }
    confirmations := fun outpoint =>
      if outpoint.index = 0 then some ⟨91, 0, false⟩ else some ⟨1, 476, true⟩
    context := ⟨⟨⟨0⟩, 100, 1500, 0⟩, 1500⟩ }

theorem RoundSetting.gate_stays_open_patientTx :
    patientRound.context.Precedes ⟨⟨⟨1⟩, 0xffffffff, 1501, 7⟩, 1500⟩ ∧
    patientRound.gate? patientTx = none ∧
    RoundSetting.gate? { patientRound with context := ⟨⟨⟨1⟩, 0xffffffff, 1501, 7⟩, 1500⟩ }
      patientTx = none := by
  have hprecedes : patientRound.context.Precedes ⟨⟨⟨1⟩, 0xffffffff, 1501, 7⟩, 1500⟩ :=
    ⟨by decide, by decide, by decide⟩
  have hgate : patientRound.gate? patientTx = none := by decide +kernel
  exact ⟨hprecedes, hgate, patientRound.gate_stays_open hprecedes hgate⟩

end BlockProduction

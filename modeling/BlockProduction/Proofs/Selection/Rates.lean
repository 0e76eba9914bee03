import BlockProduction.Proofs.Selection.Floor
import BlockProduction.Proofs.Selection.Ranking

/-!
# Notions of a fee rate

A rate is rounded down where it is reported, a fee is rounded down where the
floor asks for it, and the queue compares packages without rounding.  The three
never contradict each other: what pays for a rate by the first pays for it by
the second, and a package that the queue puts behind another has no higher rate.
-/

namespace BlockProduction

namespace FeeRate

variable {rate other : FeeRate} {fee weight heavier : UInt64}

theorem perUnit_ofFee (fee weight : UInt64) : (ofFee fee weight).perUnit.toNat =
    min (fee.toNat * unitWeight / weight.toNat) maxWord := by
  unfold ofFee
  split
  · next hweight =>
    rw [hweight, UInt64.toNat_zero, Nat.div_zero]
    rfl
  · exact clampWord_toNat _

/-- The reported rate is the greatest one that a fee is not short of. -/
theorem le_ofFee_iff (hweight : weight ≠ 0) :
    rate.perUnit ≤ (ofFee fee weight).perUnit ↔ ¬rate.Short fee weight := by
  have hpos : 0 < weight.toNat := by
    rw [Nat.pos_iff_ne_zero]
    exact fun hzero => hweight (UInt64.toNat_inj.mp hzero)
  have hword := toNat_le_maxWord rate.perUnit
  rw [UInt64.le_iff_toNat_le, perUnit_ofFee, Nat.le_min, Short, Nat.not_lt,
    Nat.le_div_iff_mul_le hpos]
  exact and_iff_left hword

theorem feeFor_le_of_le_ofFee (hweight : weight ≠ 0)
    (h : rate.perUnit ≤ (ofFee fee weight).perUnit) : rate.feeFor weight ≤ fee := by
  rw [le_ofFee_iff hweight] at h
  exact UInt64.not_lt.mp fun hless => h (short_of_lt_feeFor hless)

theorem feeFor_zero (rate : FeeRate) : rate.feeFor 0 = 0 := by
  simp [feeFor, clampWord]

/-- A rate that was rounded down asks for no more than was paid. -/
theorem feeFor_ofFee_le (fee weight : UInt64) : (ofFee fee weight).feeFor weight ≤ fee := by
  by_cases hweight : weight = 0
  · rw [hweight, feeFor_zero]
    exact UInt64.zero_le
  · exact feeFor_le_of_le_ofFee hweight UInt64.le_rfl

/-- The product rounded down, and at least one unit unless it is nothing. -/
theorem toNat_feeFor (rate : FeeRate) (weight : UInt64) : (rate.feeFor weight).toNat =
    max (min (rate.perUnit.toNat * weight.toNat / unitWeight) maxWord)
      (min (rate.perUnit.toNat * weight.toNat) 1) := by
  have hclamp := clampWord_toNat (rate.perUnit.toNat * weight.toNat / unitWeight)
  unfold feeFor
  dsimp only
  split
  · next hleast =>
    obtain ⟨hnothing, hweight, hrate⟩ := hleast
    have hweight' : 0 < weight.toNat := by
      rw [Nat.pos_iff_ne_zero]
      exact fun hzero => hweight (UInt64.toNat_inj.mp hzero)
    have hproduct := Nat.mul_pos (UInt64.lt_iff_toNat_lt.mp hrate) hweight'
    rw [hnothing, UInt64.toNat_zero] at hclamp
    rw [UInt64.toNat_one]
    omega
  · next hleast =>
    rw [hclamp]
    by_cases hproduct : rate.perUnit.toNat * weight.toNat = 0
    · rw [hproduct]
      rfl
    · -- the product is something, and so is what is left of it after rounding
      have hsome : min (rate.perUnit.toNat * weight.toNat / unitWeight) maxWord ≠ 0 := by
        intro hnothing
        obtain ⟨hrate, hweight⟩ := not_or.mp (mt Nat.mul_eq_zero.mpr hproduct)
        refine hleast ⟨UInt64.toNat_inj.mp (hclamp.trans hnothing), ?_, ?_⟩
        · exact fun hzero => hweight (UInt64.toNat_inj.mpr hzero)
        · exact UInt64.lt_iff_toNat_lt.mpr (Nat.pos_of_ne_zero hrate)
      omega

theorem feeFor_mono (hrate : rate.perUnit ≤ other.perUnit) (hweight : weight ≤ heavier) :
    rate.feeFor weight ≤ other.feeFor heavier := by
  have hmul := Nat.mul_le_mul (UInt64.le_iff_toNat_le.mp hrate) (UInt64.le_iff_toNat_le.mp hweight)
  have hdiv := Nat.div_le_div_right (c := unitWeight) hmul
  rw [UInt64.le_iff_toNat_le, toNat_feeFor, toNat_feeFor]
  omega

end FeeRate

namespace Package

variable {p q : Package}

theorem cast_weight_pos (hp : p.weight ≠ 0) : (0 : ℚ) < p.weight.toNat := by
  have hne : p.weight.toNat ≠ 0 := fun hzero => hp (UInt64.toNat_inj.mp hzero)
  exact_mod_cast Nat.pos_of_ne_zero hne

theorem reaches_iff (hp : p.weight ≠ 0) (hq : q.weight ≠ 0) :
    p.Reaches q ↔ CandidateGraph.exactRate q ≤ CandidateGraph.exactRate p := by
  unfold CandidateGraph.exactRate Reaches
  rw [div_le_div_iff₀ (cast_weight_pos hq) (cast_weight_pos hp)]
  exact_mod_cast Iff.rfl

/-- Cross products compare as the rates do. -/
theorem compareRate_eq_compare (hp : p.weight ≠ 0) (hq : q.weight ≠ 0) :
    p.compareRate q = compare (CandidateGraph.exactRate p) (CandidateGraph.exactRate q) := by
  cases hrate : p.compareRate q with
  | lt =>
      rw [compareRate_eq_lt, reaches_iff hp hq, not_le] at hrate
      exact (compare_lt_iff_lt.mpr hrate).symm
  | eq =>
      rw [compareRate_eq_eq, reaches_iff hp hq, reaches_iff hq hp] at hrate
      exact (compare_eq_iff_eq.mpr (le_antisymm hrate.2 hrate.1)).symm
  | gt =>
      rw [compareRate_eq_gt, reaches_iff hq hp, not_le] at hrate
      exact (compare_gt_iff_gt.mpr hrate).symm

theorem compareRate_ne_gt : p.compareRate q ≠ .gt ↔ q.Reaches p := by
  rw [Ne, compareRate_eq_gt, not_not]

/-- Rounding down keeps the order of rates. -/
theorem Reaches.feeRate_le (hp : p.weight ≠ 0) (hq : q.weight ≠ 0) (h : q.Reaches p) :
    p.feeRate.perUnit ≤ q.feeRate.perUnit := by
  have hpos : 0 < p.weight.toNat := by exact_mod_cast cast_weight_pos hp
  have hown : ¬p.feeRate.Short p.fee p.weight := (FeeRate.le_ofFee_iff hp).mp UInt64.le_rfl
  rw [FeeRate.Short, Nat.not_lt] at hown
  unfold Reaches at h
  show p.feeRate.perUnit ≤ (FeeRate.ofFee q.fee q.weight).perUnit
  rw [FeeRate.le_ofFee_iff hq, FeeRate.Short, Nat.not_lt]
  refine Nat.le_of_mul_le_mul_right ?_ hpos
  calc p.feeRate.perUnit.toNat * q.weight.toNat * p.weight.toNat
      = p.feeRate.perUnit.toNat * p.weight.toNat * q.weight.toNat := Nat.mul_right_comm _ _ _
    _ ≤ p.fee.toNat * FeeRate.unitWeight * q.weight.toNat := Nat.mul_le_mul_right _ hown
    _ = p.fee.toNat * q.weight.toNat * FeeRate.unitWeight := Nat.mul_right_comm _ _ _
    _ ≤ q.fee.toNat * p.weight.toNat * FeeRate.unitWeight := Nat.mul_le_mul_right _ h
    _ = q.fee.toNat * FeeRate.unitWeight * p.weight.toNat := Nat.mul_right_comm _ _ _

end Package

/-- What is paid for a rate, as it is reported, pays for it at the floor, and the floor asks for
more at a higher rate or weight.  Over some weight the queue orders packages by their exact rates,
and the reported rates follow that order. -/
theorem FeeRate.notions_agree :
    (∀ (fee weight : UInt64) (rate : FeeRate), 0 < weight →
      rate.perUnit ≤ (ofFee fee weight).perUnit → rate.feeFor weight ≤ fee) ∧
    (∀ fee weight : UInt64, (ofFee fee weight).feeFor weight ≤ fee) ∧
    (∀ (rate other : FeeRate) (weight heavier : UInt64), rate.perUnit ≤ other.perUnit →
      weight ≤ heavier → rate.feeFor weight ≤ other.feeFor heavier) ∧
    (∀ p q r : Package, p.weight ≠ 0 → q.weight ≠ 0 → r.weight ≠ 0 →
      p.compareRate p = .eq ∧ (p.compareRate q ≠ .gt ∨ q.compareRate p ≠ .gt) ∧
      (p.compareRate q ≠ .gt → q.compareRate r ≠ .gt → p.compareRate r ≠ .gt)) ∧
    ∀ p q : Package, p.weight ≠ 0 → q.weight ≠ 0 →
      p.compareRate q =
        compare ((p.fee.toNat : ℚ) / p.weight.toNat) (q.fee.toNat / q.weight.toNat) ∧
      (p.compareRate q ≠ .gt → p.feeRate.perUnit ≤ q.feeRate.perUnit) := by
  refine ⟨?_, feeFor_ofFee_le, fun _ _ _ _ => feeFor_mono, ?_, ?_⟩
  · intro fee weight rate hweight hrate
    exact feeFor_le_of_le_ofFee (UInt64.pos_iff_ne_zero.mp hweight) hrate
  · intro p q r hp hq hr
    simp only [Package.compareRate_ne_gt]
    refine ⟨Package.compareRate_eq_eq.mpr ⟨Nat.le_refl _, Nat.le_refl _⟩,
      Package.reaches_total q p, fun hpq hqr => ?_⟩
    exact Package.Reaches.trans (fun hvoid => hq hvoid.2) hqr hpq
  · intro p q hp hq
    refine ⟨Package.compareRate_eq_compare hp hq, fun h => ?_⟩
    exact (Package.compareRate_ne_gt.mp h).feeRate_le hp hq

/-- A rate that stays at the greatest word, a fee that is less than one unit before it is rounded,
and two packages whose rates are the same when they are rounded. -/
theorem FeeRate.notions_agree_clamped :
    (((0 : UInt64) < 999 ∧
      (⟨0xffffffffffffffff⟩ : FeeRate).perUnit ≤ (ofFee 0xffffffffffffffff 999).perUnit) ∧
      (⟨0xffffffffffffffff⟩ : FeeRate).feeFor 999 ≤ 0xffffffffffffffff) ∧
    (((1 : UInt64) ≤ 2 ∧ (3 : UInt64) ≤ 4) ∧ (⟨1⟩ : FeeRate).feeFor 3 = 1 ∧
      (⟨1⟩ : FeeRate).feeFor 3 ≤ (⟨2⟩ : FeeRate).feeFor 4) ∧
    ((⟨1, 2001, 0, 1⟩ : Package).compareRate ⟨1, 2000, 0, 1⟩ = .lt ∧
      (⟨1, 2000, 0, 1⟩ : Package).compareRate ⟨2, 4000, 0, 1⟩ = .eq ∧
      (⟨1, 2001, 0, 1⟩ : Package).compareRate ⟨2, 4000, 0, 1⟩ ≠ .gt) ∧
    (⟨1, 2001, 0, 1⟩ : Package).feeRate.perUnit ≤ (⟨1, 2000, 0, 1⟩ : Package).feeRate.perUnit := by
  obtain ⟨hpays, -, hmono, horder, hrates⟩ := notions_agree
  have hclamped : (⟨0xffffffffffffffff⟩ : FeeRate).perUnit ≤
      (ofFee 0xffffffffffffffff 999).perUnit := by decide
  have hless : (⟨1, 2001, 0, 1⟩ : Package).compareRate ⟨1, 2000, 0, 1⟩ = .lt := by decide
  have hsame : (⟨1, 2000, 0, 1⟩ : Package).compareRate ⟨2, 4000, 0, 1⟩ = .eq := by decide
  refine ⟨⟨⟨by decide, hclamped⟩, hpays _ 999 _ (by decide) hclamped⟩,
    ⟨⟨by decide, by decide⟩, by decide, hmono ⟨1⟩ ⟨2⟩ 3 4 (by decide) (by decide)⟩,
    ⟨hless, hsame, ?_⟩, ?_⟩
  · exact (horder _ ⟨1, 2000, 0, 1⟩ ⟨2, 4000, 0, 1⟩ (by decide) (by decide) (by decide)).2.2
      (by rw [hless]; decide) (by rw [hsame]; decide)
  · exact (hrates ⟨1, 2001, 0, 1⟩ ⟨1, 2000, 0, 1⟩ (by decide) (by decide)).2
      (by rw [hless]; decide)

end BlockProduction

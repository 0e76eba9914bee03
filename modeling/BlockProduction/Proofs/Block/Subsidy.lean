import BlockProduction.Block.Subsidy
import Mathlib

/-!
# Subsidies as numbers

The subsidy is the first one, halved once for each whole interval below the
height and rounded down.  After 64 halvings that is nothing, as the first
subsidy fits into a word.

All blocks together bring less than two eras at the first subsidy.  What is
outstanding at a height would be brought from there on if halves were never
rounded; each block takes its subsidy from it, and something always remains.
-/

namespace BlockProduction

/-- The subsidy of the block at a height, where there is an interval. -/
def subsidyAt (height halvingInterval : Nat) : Nat :=
  if halvingInterval = 0 then 0 else initialSubsidy / 2 ^ (height / halvingInterval)

theorem subsidyAt_le (height halvingInterval : Nat) :
    subsidyAt height halvingInterval ≤ initialSubsidy := by
  unfold subsidyAt
  split
  · exact Nat.zero_le _
  · exact Nat.div_le_self _ _

theorem subsidyAt_eq_zero {height halvingInterval : Nat} (h : 64 ≤ height / halvingInterval) :
    subsidyAt height halvingInterval = 0 := by
  have hpow : 2 ^ 64 ≤ 2 ^ (height / halvingInterval) := Nat.pow_le_pow_right (by decide) h
  have hlt : initialSubsidy < 2 ^ (height / halvingInterval) :=
    Nat.lt_of_lt_of_le (by decide) hpow
  unfold subsidyAt
  split
  · rfl
  · exact Nat.div_eq_of_lt hlt

theorem toNat_blockSubsidy (height halvingInterval : UInt32) :
    (blockSubsidy height halvingInterval).toNat =
      subsidyAt height.toNat halvingInterval.toNat := by
  unfold blockSubsidy
  dsimp only
  split
  · rename_i hzero
    rw [hzero]
    rfl
  · rename_i hinterval
    have hinterval : halvingInterval.toNat ≠ 0 := fun h => hinterval (UInt32.toNat_inj.mp h)
    split
    · rename_i hlate
      rw [subsidyAt_eq_zero hlate]
      rfl
    · have hshift : initialSubsidy >>> (height.toNat / halvingInterval.toNat) =
          subsidyAt height.toNat halvingInterval.toNat := by
        rw [subsidyAt, if_neg hinterval, Nat.shiftRight_eq_div_pow]
      have hle := subsidyAt_le height.toNat halvingInterval.toNat
      have hword : initialSubsidy < UInt64.size := by decide
      rw [hshift, UInt64.toNat_ofNat_of_lt' (Nat.lt_of_le_of_lt hle hword)]

/-- The subsidy never exceeds the one before the first halving. -/
theorem blockSubsidy_le (height halvingInterval : UInt32) :
    (blockSubsidy height halvingInterval).toNat ≤ initialSubsidy := by
  rw [toNat_blockSubsidy]
  exact subsidyAt_le _ _

/-! ## Issuance -/

/-- A later block has no higher subsidy. -/
theorem subsidyAt_le_of_le {height later : Nat} (halvingInterval : Nat) (h : height ≤ later) :
    subsidyAt later halvingInterval ≤ subsidyAt height halvingInterval := by
  unfold subsidyAt
  split
  · exact Nat.le_refl 0
  · have hera : height / halvingInterval ≤ later / halvingInterval := Nat.div_le_div_right h
    exact Nat.div_le_div_left (Nat.pow_le_pow_right (by decide) hera) (Nat.two_pow_pos _)

/-- What the blocks from a height on would bring if halves were never rounded: the rest of the
era at its subsidy, and as much as a whole era for all eras after it. -/
def outstanding (halvingInterval height : Nat) : ℚ :=
  (2 * halvingInterval - (height % halvingInterval : Nat)) *
    (initialSubsidy / 2 ^ (height / halvingInterval))

section

variable {halvingInterval : Nat} (hinterval : 0 < halvingInterval)

include hinterval

theorem outstanding_pos (height : Nat) : 0 < outstanding halvingInterval height := by
  have hwithin : height % halvingInterval < 2 * halvingInterval := by
    have hlt := Nat.mod_lt height hinterval
    omega
  have hrest : (0 : ℚ) < 2 * halvingInterval - (height % halvingInterval : Nat) := by
    rw [sub_pos]
    exact_mod_cast hwithin
  have hsubsidy : (0 : ℚ) < initialSubsidy := by
    norm_num [initialSubsidy]
  exact mul_pos hrest (div_pos hsubsidy (by positivity))

/-- The next height is one further in the era, or at the start of the next one. -/
theorem div_mod_succ_cases (height : Nat) :
    ((height + 1) / halvingInterval = height / halvingInterval ∧
      (height + 1) % halvingInterval = height % halvingInterval + 1) ∨
    ((height + 1) / halvingInterval = height / halvingInterval + 1 ∧
      (height + 1) % halvingInterval = 0 ∧ height % halvingInterval + 1 = halvingInterval) := by
  have hlt := Nat.mod_lt height hinterval
  have hcut := Nat.mod_add_div height halvingInterval
  by_cases hlast : height % halvingInterval + 1 = halvingInterval
  · have hnext : 0 + halvingInterval * (height / halvingInterval + 1) = height + 1 := by
      rw [Nat.mul_succ]
      omega
    obtain ⟨hdiv, hmod⟩ := (Nat.div_mod_unique hinterval).mpr ⟨hnext, hinterval⟩
    exact .inr ⟨hdiv, hmod, hlast⟩
  · have hnext : height % halvingInterval + 1 + halvingInterval * (height / halvingInterval) =
        height + 1 := by
      omega
    exact .inl ((Nat.div_mod_unique hinterval).mpr ⟨hnext, by omega⟩)

/-- The subsidy of a block, before it is rounded, is taken from what is outstanding. -/
theorem outstanding_eq (height : Nat) : outstanding halvingInterval height =
    initialSubsidy / 2 ^ (height / halvingInterval) +
      outstanding halvingInterval (height + 1) := by
  unfold outstanding
  rcases div_mod_succ_cases hinterval height with ⟨hera, hplace⟩ | ⟨hera, hplace, hlast⟩
  · rw [hera, hplace]
    push_cast
    ring
  · -- the last block of an era: the next era brings half as much
    have hcast : ((height % halvingInterval : Nat) : ℚ) = halvingInterval - 1 := by
      rw [eq_sub_iff_add_eq]
      exact_mod_cast hlast
    rw [hera, hplace, hcast, pow_succ]
    push_cast
    ring

theorem subsidyAt_add_outstanding_le (height : Nat) :
    subsidyAt height halvingInterval + outstanding halvingInterval (height + 1) ≤
      outstanding halvingInterval height := by
  have hrounded : (subsidyAt height halvingInterval : ℚ) ≤
      initialSubsidy / 2 ^ (height / halvingInterval) := by
    rw [subsidyAt, if_neg (Nat.ne_of_gt hinterval)]
    exact_mod_cast Nat.cast_div_le (α := ℚ) (m := initialSubsidy)
      (n := 2 ^ (height / halvingInterval))
  rw [outstanding_eq hinterval height]
  exact add_le_add_left hrounded _

/-- Nothing is issued that was not outstanding at the start. -/
theorem issued_add_outstanding_le (n : Nat) :
    (∑ height ∈ Finset.range n, subsidyAt height halvingInterval : Nat) +
      outstanding halvingInterval n ≤ 2 * halvingInterval * initialSubsidy := by
  induction n with
  | zero => simp [outstanding]
  | succ n ih =>
      have hstep := subsidyAt_add_outstanding_le hinterval n
      rw [Finset.sum_range_succ, Nat.cast_add]
      linarith

theorem issued_lt (n : Nat) : ∑ height ∈ Finset.range n, subsidyAt height halvingInterval <
    2 * halvingInterval * initialSubsidy := by
  have hle := issued_add_outstanding_le hinterval n
  have hpos := outstanding_pos hinterval n
  have hlt : ((∑ height ∈ Finset.range n, subsidyAt height halvingInterval : Nat) : ℚ) <
      (2 * halvingInterval * initialSubsidy : Nat) := by
    push_cast at hle ⊢
    linarith
  exact_mod_cast hlt

end

/-- All blocks together bring less than two eras at the first subsidy, and the subsidy of a block
is no higher than that of an earlier one. -/
theorem issuance_bounded (halvingInterval : UInt32) (hinterval : 1 ≤ halvingInterval) (n : Nat)
    (hn : n ≤ 2 ^ 32) :
    ∑ height ∈ Finset.range n, (blockSubsidy (.ofNat height) halvingInterval).toNat <
      2 * halvingInterval.toNat * initialSubsidy ∧
    ∀ height later : UInt32, height ≤ later →
      blockSubsidy later halvingInterval ≤ blockSubsidy height halvingInterval := by
  constructor
  · have hsum : ∑ height ∈ Finset.range n, (blockSubsidy (.ofNat height) halvingInterval).toNat =
        ∑ height ∈ Finset.range n, subsidyAt height halvingInterval.toNat := by
      refine Finset.sum_congr rfl fun height hheight => ?_
      have hlt : height < 2 ^ 32 := Nat.lt_of_lt_of_le (Finset.mem_range.mp hheight) hn
      rw [toNat_blockSubsidy, UInt32.toNat_ofNat_of_lt' hlt]
    rw [hsum]
    exact issued_lt (UInt32.le_iff_toNat_le.mp hinterval) n
  · intro height later h
    rw [UInt64.le_iff_toNat_le, toNat_blockSubsidy, toNat_blockSubsidy]
    exact subsidyAt_le_of_le _ (UInt32.le_iff_toNat_le.mp h)

/-- All heights that there are, with a halving every 210000 blocks. -/
theorem issuance_bounded_all_heights : (1 : UInt32) ≤ 210000 ∧ 2 ^ 32 ≤ 2 ^ 32 ∧
    ∑ height ∈ Finset.range (2 ^ 32), (blockSubsidy (.ofNat height) 210000).toNat <
      21000000 * 100000000 ∧
    blockSubsidy 210000 210000 ≤ blockSubsidy 209999 210000 := by
  obtain ⟨hsum, hanti⟩ := issuance_bounded 210000 (by decide) (2 ^ 32) (Nat.le_refl _)
  have hcap : 2 * UInt32.toNat 210000 * initialSubsidy = 21000000 * 100000000 := by decide
  rw [hcap] at hsum
  exact ⟨by decide, Nat.le_refl _, hsum, hanti 209999 210000 (by decide)⟩

end BlockProduction

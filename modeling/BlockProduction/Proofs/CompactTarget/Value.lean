import BlockProduction.CompactTarget
import BlockProduction.Proofs.Bytes

/-!
# The number behind compact bits

Compact bits denote their digits, moved by whole bytes until the number has the
size that they name; digits that would stand behind the point are dropped.  The
number is not bounded by any width.

Main statement: reading the bits gives that number modulo the width of a target
and tells of an overflow exactly when it does not fit, and a hash meets the bits
exactly when the number is a positive one within the limit and the hash does not
exceed it.
-/

namespace BlockProduction.CompactTarget

/-- The size that compact bits name: their top byte. -/
def byteSize (bits : UInt32) : Nat :=
  bits.toNat / 2 ^ 24

/-- The digits of compact bits: the low 23 bits. -/
def mantissa (bits : UInt32) : Nat :=
  bits.toNat % 2 ^ 23

/-- Digits moved to a size: `word * 256 ^ (size - 3)`, rounded down where the exponent is
negative. -/
def valueAt (size word : Nat) : Nat :=
  word * 256 ^ size / 256 ^ 3

/-- The number that compact bits denote, their sign apart. -/
def value (bits : UInt32) : Nat :=
  valueAt (byteSize bits) (mantissa bits)

variable {bits : UInt32} {size word : Nat}

theorem mantissa_lt (bits : UInt32) : mantissa bits < 2 ^ 23 :=
  Nat.mod_lt _ (by decide)

/-! ## Moving digits -/

/-- Small sizes drop digits. -/
theorem valueAt_of_le (h : size ≤ 3) : valueAt size word = word / 256 ^ (3 - size) := by
  have hsplit : 256 ^ 3 = 256 ^ (3 - size) * 256 ^ size := by
    rw [← Nat.pow_add, Nat.sub_add_cancel h]
  rw [valueAt, hsplit, Nat.mul_div_mul_right _ _ (Nat.pow_pos (by decide))]

/-- All other sizes are exact. -/
theorem valueAt_of_ge (h : 3 ≤ size) : valueAt size word = word * 256 ^ (size - 3) := by
  have hsplit : word * 256 ^ size = word * 256 ^ (size - 3) * 256 ^ 3 := by
    rw [Nat.mul_assoc, ← Nat.pow_add, Nat.sub_add_cancel h]
  rw [valueAt, hsplit, Nat.mul_div_cancel _ (by decide)]

theorem valueAt_mono {size' word' : Nat} (h : word * 256 ^ size ≤ word' * 256 ^ size') :
    valueAt size word ≤ valueAt size' word' :=
  Nat.div_le_div_right h

/-! ## Reading -/

theorem digits_eq (bits : UInt32) : digits bits = mantissa bits / 256 ^ (3 - byteSize bits) := by
  rw [digits, Nat.shiftRight_eq_div_pow, Nat.pow_mul]
  rfl

theorem digits_lt (bits : UInt32) : digits bits < 2 ^ 23 := by
  rw [digits_eq]
  exact Nat.lt_of_le_of_lt (Nat.div_le_self _ _) (mantissa_lt bits)

/-- The digits that are left after the move down are moved up. -/
theorem value_eq (bits : UInt32) : value bits = digits bits * 256 ^ (byteSize bits - 3) := by
  rw [value, digits_eq]
  by_cases hsize : byteSize bits ≤ 3
  · rw [valueAt_of_le hsize, Nat.sub_eq_zero_of_le hsize, Nat.pow_zero, Nat.mul_one]
  · have hlarge : 3 ≤ byteSize bits := by omega
    rw [valueAt_of_ge hlarge, Nat.sub_eq_zero_of_le hlarge, Nat.pow_zero, Nat.div_one]

theorem value_eq_zero_iff : value bits = 0 ↔ digits bits = 0 := by
  rw [value_eq, Nat.mul_eq_zero, or_iff_left (Nat.pow_pos (by decide)).ne']

theorem toNat_target (bits : UInt32) : (ofBits bits).target.toNat = value bits % 2 ^ 256 := by
  rw [value_eq, ofBits, BitVec.toNat_ofNat, Nat.shiftLeft_eq, Nat.pow_mul]
  rfl

theorem negative_iff :
    (ofBits bits).negative = true ↔ value bits ≠ 0 ∧ bits.toNat.testBit 23 = true := by
  simp [ofBits, value_eq_zero_iff]

/-- The three bounds on size and digits tell the numbers of more than 256 bits. -/
theorem overflow_iff : (ofBits bits).overflow = true ↔ 2 ^ 256 ≤ value bits := by
  have hflag : (ofBits bits).overflow = true ↔ digits bits ≠ 0 ∧ (34 < byteSize bits ∨
      (0xff < digits bits ∧ 33 < byteSize bits) ∨ (0xffff < digits bits ∧ 32 < byteSize bits)) := by
    simp [ofBits, byteSize, sizeUnit, or_assoc]
  rw [hflag, value_eq]
  have hdigits := digits_lt bits
  generalize digits bits = word at *
  generalize byteSize bits = size
  rcases Nat.lt_or_ge 34 size with hlarge | hsmall
  · have hpow : 256 ^ 32 ≤ 256 ^ (size - 3) := Nat.pow_le_pow_right (by decide) (by omega)
    generalize 256 ^ (size - 3) = scale at hpow
    rcases Nat.eq_zero_or_pos word with rfl | hpos
    · simp
    · have hle : scale ≤ word * scale := Nat.le_mul_of_pos_left scale hpos
      omega
  · obtain rfl | rfl | hfits : size = 34 ∨ size = 33 ∨ size ≤ 32 := by omega
    · simp only [Nat.reduceSub]
      omega
    · simp only [Nat.reduceSub]
      omega
    · have hpow : 256 ^ (size - 3) ≤ 256 ^ 29 := Nat.pow_le_pow_right (by decide) (by omega)
      have hlt : word * 256 ^ (size - 3) < 2 ^ 23 * 256 ^ 29 :=
        Nat.mul_lt_mul_of_lt_of_le hdigits hpow (by decide)
      omega

theorem toNat_target_of_lt (h : value bits < 2 ^ 256) :
    (ofBits bits).target.toNat = value bits := by
  rw [toNat_target, Nat.mod_eq_of_lt h]

/-- Bits without an overflow are read exactly. -/
theorem toNat_target_of_fits (h : (ofBits bits).overflow = false) :
    (ofBits bits).target.toNat = value bits := by
  refine toNat_target_of_lt (Nat.lt_of_not_le fun hover => ?_)
  rw [overflow_iff.mpr hover] at h
  nomatch h

/-! ## The rule -/

/-- Bits are usable when they denote a positive number within the limit. -/
theorem isValidUnder_iff {limit : Word256} : (ofBits bits).isValidUnder limit = true ↔
    bits.toNat.testBit 23 = false ∧ 0 < value bits ∧ value bits ≤ limit.toNat := by
  have hlimit := limit.isLt
  have hzero : (ofBits bits).target ≠ 0 ↔ (ofBits bits).target.toNat ≠ 0 :=
    not_congr BitVec.toNat_inj.symm
  simp only [isValidUnder, Bool.and_eq_true, Bool.not_eq_true', ← Bool.not_eq_true, negative_iff,
    overflow_iff, bne_iff_ne, decide_eq_true_eq, hzero]
  rcases Nat.lt_or_ge (value bits) (2 ^ 256) with hfits | hover
  · rw [toNat_target_of_lt hfits]
    grind
  · -- a number beyond all targets is beyond the limit
    constructor
    · rintro ⟨⟨⟨-, hfits⟩, -⟩, -⟩
      exact absurd hover hfits
    · rintro ⟨-, -, hle⟩
      omega

theorem toNat_toWord (hash : Hash256) : hash.toWord.toNat = ofLeBytes hash.bytes := by
  have hlt : ofLeBytes hash.bytes < 2 ^ 256 := by simpa using ofLeBytes_lt hash.bytes
  rw [Hash256.toWord, BitVec.toNat_ofNat, Nat.mod_eq_of_lt hlt]

/-- A hash meets bits without a sign that denote a positive number up to the limit, which it does
not exceed; and of the number, reading tells all that fits. -/
theorem meets_exactly (hash : Hash256) (bits : UInt32) (limit : Word256) :
    (meets hash bits limit = true ↔ bits.toNat.testBit 23 = false ∧ 0 < value bits ∧
      value bits ≤ limit.toNat ∧ ofLeBytes hash.bytes ≤ value bits) ∧
    ((ofBits bits).overflow = true ↔ 2 ^ 256 ≤ value bits) ∧
    (value bits < 2 ^ 256 → (ofBits bits).target.toNat = value bits) := by
  refine ⟨?_, overflow_iff, toNat_target_of_lt⟩
  have hlimit := limit.isLt
  simp only [meets, Bool.and_eq_true, isValidUnder_iff, decide_eq_true_eq, toNat_toWord]
  constructor
  · rintro ⟨⟨hsign, hpos, hle⟩, hhash⟩
    rw [toNat_target_of_lt (by omega)] at hhash
    exact ⟨hsign, hpos, hle, hhash⟩
  · rintro ⟨hsign, hpos, hle, hhash⟩
    rw [toNat_target_of_lt (by omega)]
    exact ⟨⟨hsign, hpos, hle⟩, hhash⟩

/-- The least number with an overflow, and the greatest one of the same size without. -/
example : (ofBits 0x22000100).overflow = true ∧ (ofBits 0x220000ff).overflow = false := by decide

end BlockProduction.CompactTarget

import BlockProduction.Proofs.CompactTarget.Value

/-!
# Targets in compact form

Compact bits hold three bytes of a target at most.  Writing a target keeps its
leading digits at the size where they are at least `2 ^ 15` and below the sign;
these sizes are in the order of the targets.

Main statement: the bits that are written for a target denote the greatest
number not above it that any bits denote; to write that number again gives the
same bits, and the order of targets is kept.
-/

namespace BlockProduction.CompactTarget

/-- The digits of a number at a size: what is left of it above the bytes that the size leaves
out. -/
def digitsAt (size n : Nat) : Nat :=
  n * 256 ^ 3 / 256 ^ size

/-- At this size the digits fill the mantissa as far as whole bytes allow. -/
def Normal (size n : Nat) : Prop :=
  2 ^ 15 ≤ digitsAt size n ∧ digitsAt size n < 2 ^ 23

variable {size size' word n n' : Nat}

/-! ## Digits at a size -/

theorem digitsAt_mono (size : Nat) (h : n ≤ n') : digitsAt size n ≤ digitsAt size n' :=
  Nat.div_le_div_right (Nat.mul_le_mul_right _ h)

/-- Small sizes have room for more bytes than the number has. -/
theorem digitsAt_of_le (h : size ≤ 3) : digitsAt size n = n * 256 ^ (3 - size) := by
  have hsplit : n * 256 ^ 3 = n * 256 ^ (3 - size) * 256 ^ size := by
    rw [Nat.mul_assoc, ← Nat.pow_add, Nat.sub_add_cancel h]
  rw [digitsAt, hsplit, Nat.mul_div_cancel _ (Nat.pow_pos (by decide))]

theorem digitsAt_of_ge (h : 3 ≤ size) : digitsAt size n = n / 256 ^ (size - 3) := by
  have hsplit : 256 ^ size = 256 ^ (size - 3) * 256 ^ 3 := by
    rw [← Nat.pow_add, Nat.sub_add_cancel h]
  rw [digitsAt, hsplit, Nat.mul_div_mul_right _ _ (by decide)]

theorem digitsAt_succ (size n : Nat) : digitsAt (size + 1) n = digitsAt size n / 256 := by
  rw [digitsAt, digitsAt, Nat.div_div_eq_div_mul, ← Nat.pow_succ]

/-- Nothing is lost at a small size. -/
theorem valueAt_digitsAt_of_le (h : size ≤ 3) : valueAt size (digitsAt size n) = n := by
  rw [valueAt_of_le h, digitsAt_of_le h, Nat.mul_div_cancel _ (Nat.pow_pos (by decide))]

theorem valueAt_digitsAt_le (size n : Nat) : valueAt size (digitsAt size n) ≤ n := by
  rcases Nat.le_total size 3 with hsmall | hlarge
  · rw [valueAt_digitsAt_of_le hsmall]
  · rw [valueAt_of_ge hlarge, digitsAt_of_ge hlarge]
    exact Nat.div_mul_le_self _ _

/-- The digits of what is left of a number are the digits of the number. -/
theorem digitsAt_valueAt_digitsAt (size n : Nat) :
    digitsAt size (valueAt size (digitsAt size n)) = digitsAt size n := by
  rcases Nat.le_total size 3 with hsmall | hlarge
  · rw [valueAt_digitsAt_of_le hsmall]
  · rw [valueAt_of_ge hlarge, digitsAt_of_ge hlarge,
      Nat.mul_div_cancel _ (Nat.pow_pos (by decide))]

/-- At a size, no digits of that size or a greater one denote more of a number. -/
theorem valueAt_le_of_size_le (hsize : size ≤ size') (hle : valueAt size' word ≤ n) :
    valueAt size' word ≤ valueAt size (digitsAt size n) := by
  rcases Nat.le_total size 3 with hsmall | hlarge
  · rwa [valueAt_digitsAt_of_le hsmall]
  · have hsplit : 256 ^ (size' - 3) = 256 ^ (size' - size) * 256 ^ (size - 3) := by
      rw [← Nat.pow_add]
      congr 1
      omega
    rw [valueAt_of_ge (by omega), hsplit, ← Nat.mul_assoc] at hle ⊢
    rw [valueAt_of_ge hlarge, digitsAt_of_ge hlarge]
    exact Nat.mul_le_mul_right _ ((Nat.le_div_iff_mul_le (Nat.pow_pos (by decide))).mpr hle)

/-! ## The normal size -/

theorem Normal.le_mul (h : Normal size n) : 2 ^ 15 * 256 ^ size ≤ n * 256 ^ 3 :=
  (Nat.le_div_iff_mul_le (Nat.pow_pos (by decide))).mp h.1

theorem Normal.mul_lt (h : Normal size n) : n * 256 ^ 3 < 2 ^ 15 * 256 ^ (size + 1) := by
  have hlt := (Nat.div_lt_iff_lt_mul (Nat.pow_pos (by decide))).mp h.2
  rw [Nat.pow_succ]
  omega

/-- The sizes at which digits are normal are in the order of the numbers. -/
theorem Normal.size_le (h : Normal size n) (h' : Normal size' n') (hle : n ≤ n') :
    size ≤ size' := by
  by_contra hlt
  have hpow : 256 ^ (size' + 1) ≤ 256 ^ size := Nat.pow_le_pow_right (by decide) (by omega)
  have hlow := h.le_mul
  have hhigh := h'.mul_lt
  omega

/-- What is left of a number at its normal size has the same digits there. -/
theorem Normal.valueAt_digitsAt (h : Normal size n) :
    Normal size (valueAt size (digitsAt size n)) := by
  unfold Normal
  rw [digitsAt_valueAt_digitsAt]
  exact h

/-- No digits at any size denote more of a number than those at its normal size. -/
theorem Normal.valueAt_le (h : Normal size n) (hword : word < 2 ^ 23)
    (hle : valueAt size' word ≤ n) : valueAt size' word ≤ valueAt size (digitsAt size n) := by
  rcases Nat.lt_or_ge size' size with hfiner | hcoarser
  · -- at a smaller size, all digits together stay below the least normal ones
    have hpow : 256 ^ (size' + 1) ≤ 256 ^ size := Nat.pow_le_pow_right (by decide) hfiner
    have hlow : word * 256 ^ size' ≤ 2 ^ 23 * 256 ^ size' :=
      Nat.mul_le_mul_right _ (Nat.le_of_lt hword)
    have hhigh : 2 ^ 15 * 256 ^ size ≤ digitsAt size n * 256 ^ size := Nat.mul_le_mul_right _ h.1
    rw [Nat.pow_succ] at hpow
    exact valueAt_mono (by omega)
  · exact valueAt_le_of_size_le hcoarser hle

/-! ## Writing -/

/-- Bits that have a number's digits at its normal size, and no sign. -/
structure Writes (bits : UInt32) (n : Nat) : Prop where
  normal : Normal (byteSize bits) n
  toNat_eq : bits.toNat = byteSize bits * 2 ^ 24 + digitsAt (byteSize bits) n

namespace Writes

variable {bits bits' : UInt32}

theorem unsigned (h : Writes bits n) : bits.toNat.testBit 23 = false := by
  have hdigits := h.normal.2
  have hbits := h.toNat_eq
  rw [Nat.testBit_eq_decide_div_mod_eq, decide_eq_false_iff_not]
  omega

theorem value_eq (h : Writes bits n) :
    value bits = valueAt (byteSize bits) (digitsAt (byteSize bits) n) := by
  have hdigits := h.normal.2
  have hbits := h.toNat_eq
  have hmantissa : mantissa bits = digitsAt (byteSize bits) n := by
    unfold mantissa
    omega
  rw [value, hmantissa]

theorem value_le (h : Writes bits n) : value bits ≤ n := by
  rw [h.value_eq]
  exact valueAt_digitsAt_le _ _

/-- The bits write the number that they denote, too. -/
theorem value_self (h : Writes bits n) : Writes bits (value bits) := by
  rw [h.value_eq]
  refine ⟨h.normal.valueAt_digitsAt, ?_⟩
  rw [digitsAt_valueAt_digitsAt]
  exact h.toNat_eq

theorem ne_zero {target : Word256} (h : Writes bits target.toNat) : target ≠ 0 := by
  rintro rfl
  have hleast := h.normal.1
  simp [digitsAt] at hleast

theorem mono (h : Writes bits n) (h' : Writes bits' n') (hle : n ≤ n') : bits ≤ bits' := by
  have hdigits := h.normal.2
  have hsize := h.normal.size_le h'.normal hle
  rw [UInt32.le_iff_toNat_le, h.toNat_eq, h'.toNat_eq]
  rcases Nat.eq_or_lt_of_le hsize with heq | hlt
  · rw [← heq]
    exact Nat.add_le_add_left (digitsAt_mono _ hle) _
  · omega

end Writes

/-- The bytes of a number that is not zero: all but the last one are below it. -/
theorem exists_lastByte (hn : n ≠ 0) :
    ∃ last, (bitLength n + 7) / 8 = last + 1 ∧ 256 ^ last ≤ n ∧ n < 256 ^ (last + 1) := by
  have hlow : 2 ^ n.log2 ≤ n := Nat.log2_self_le hn
  have hhigh : n < 2 ^ (n.log2 + 1) := Nat.lt_log2_self
  have hbase : ∀ k, 256 ^ k = 2 ^ (8 * k) := fun k => by rw [Nat.pow_mul]
  refine ⟨n.log2 / 8, ?_, ?_, ?_⟩
  · rw [bitLength, if_neg hn]
    omega
  · rw [hbase]
    exact Nat.le_trans (Nat.pow_le_pow_right (by decide) (by omega)) hlow
  · rw [hbase]
    exact Nat.lt_of_lt_of_le hhigh (Nat.pow_le_pow_right (by decide) (by omega))

/-- At the size of all its bytes, a number has three bytes of digits. -/
theorem digitsAt_bounds {last : Nat} (hlow : 256 ^ last ≤ n) (hhigh : n < 256 ^ (last + 1)) :
    2 ^ 16 ≤ digitsAt (last + 1) n ∧ digitsAt (last + 1) n < 2 ^ 24 := by
  constructor
  · rw [digitsAt, Nat.le_div_iff_mul_le (Nat.pow_pos (by decide)), Nat.pow_succ]
    omega
  · rw [digitsAt, Nat.div_lt_iff_lt_mul (Nat.pow_pos (by decide))]
    omega

theorem testBit_sign_iff (h : word < 2 ^ 24) : word.testBit 23 = true ↔ 2 ^ 23 ≤ word := by
  rw [Nat.testBit_eq_decide_div_mod_eq, decide_eq_true_iff]
  omega

theorem shift_eq_digitsAt (size n : Nat) :
    (n <<< (8 * (3 - size))) >>> (8 * (size - 3)) = digitsAt size n := by
  rw [Nat.shiftLeft_eq, Nat.shiftRight_eq_div_pow, Nat.pow_mul, Nat.pow_mul]
  rcases Nat.le_total size 3 with hsmall | hlarge
  · rw [digitsAt_of_le hsmall, Nat.sub_eq_zero_of_le hsmall, Nat.pow_zero, Nat.div_one]
  · rw [digitsAt_of_ge hlarge, Nat.sub_eq_zero_of_le hlarge, Nat.pow_zero, Nat.mul_one]

theorem writes_ofNat (h : Normal size n) (hsize : size < 256) :
    Writes (UInt32.ofNat (digitsAt size n + size * sizeUnit)) n := by
  have hdigits := h.2
  have htoNat : (UInt32.ofNat (digitsAt size n + size * sizeUnit)).toNat =
      size * 2 ^ 24 + digitsAt size n := by
    rw [UInt32.toNat_ofNat', sizeUnit]
    omega
  have hbyteSize : byteSize (UInt32.ofNat (digitsAt size n + size * sizeUnit)) = size := by
    rw [byteSize, htoNat]
    omega
  exact ⟨by rwa [hbyteSize], by rw [hbyteSize, htoNat]⟩

/-- A target is written with its digits at the size of its bytes, or at the next size where they
would set the sign. -/
theorem writes_toBits {target : Word256} (h : target ≠ 0) :
    Writes (toBits target) target.toNat := by
  have hn : target.toNat ≠ 0 := fun hzero => h (BitVec.eq_of_toNat_eq hzero)
  obtain ⟨last, hsize, hlow, hhigh⟩ := exists_lastByte hn
  obtain ⟨hlower, hupper⟩ := digitsAt_bounds hlow hhigh
  have hlast : last < 32 := by
    have hlt : 256 ^ last < 256 ^ 32 := Nat.lt_of_le_of_lt hlow target.isLt
    exact (Nat.pow_lt_pow_iff_right (by decide)).mp hlt
  simp only [toBits, hsize, shift_eq_digitsAt]
  by_cases hset : (digitsAt (last + 1) target.toNat).testBit 23 = true
  · have hleast := (testBit_sign_iff hupper).mp hset
    rw [if_pos hset, ← digitsAt_succ]
    refine writes_ofNat ?_ (by omega)
    rw [Normal, digitsAt_succ]
    omega
  · have hclear := mt (testBit_sign_iff hupper).mpr hset
    rw [if_neg hset]
    exact writes_ofNat ⟨by omega, by omega⟩ (by omega)

/-! ## The best approximation -/

/-- Bits denote the greatest number up to a target that any bits denote. -/
structure RoundsDown (bits : UInt32) (target : Word256) : Prop where
  unsigned : (ofBits bits).negative = false
  fits : (ofBits bits).overflow = false
  target_le : (ofBits bits).target ≤ target
  greatest : ∀ other, (ofBits other).negative = false → (ofBits other).overflow = false →
    (ofBits other).target ≤ target → (ofBits other).target ≤ (ofBits bits).target

theorem Writes.fits {bits : UInt32} {target : Word256} (h : Writes bits target.toNat) :
    (ofBits bits).overflow = false := by
  rw [← Bool.not_eq_true, overflow_iff]
  exact Nat.not_le_of_lt (Nat.lt_of_le_of_lt h.value_le target.isLt)

theorem Writes.roundsDown {bits : UInt32} {target : Word256} (h : Writes bits target.toNat) :
    RoundsDown bits target where
  unsigned := by
    rw [← Bool.not_eq_true, negative_iff, h.unsigned]
    simp
  fits := h.fits
  target_le := by
    rw [BitVec.le_def, toNat_target_of_fits h.fits]
    exact h.value_le
  greatest := by
    intro other _ hfits hle
    rw [BitVec.le_def, toNat_target_of_fits hfits] at hle ⊢
    rw [toNat_target_of_fits h.fits, h.value_eq]
    exact h.normal.valueAt_le (mantissa_lt other) hle

theorem roundsDown_toBits (target : Word256) : RoundsDown (toBits target) target := by
  by_cases hzero : target = 0
  · subst hzero
    exact ⟨rfl, rfl, by decide, fun other _ _ hle => hle⟩
  · exact (writes_toBits hzero).roundsDown

/-- A target that was written and read is written in the same way. -/
theorem toBits_target_toBits (target : Word256) :
    toBits (ofBits (toBits target)).target = toBits target := by
  by_cases hzero : target = 0
  · subst hzero
    rfl
  · have hwrites := writes_toBits hzero
    have hself := hwrites.value_self
    rw [← toNat_target_of_fits hwrites.fits] at hself
    have hagain := writes_toBits hself.ne_zero
    exact UInt32.le_antisymm (hagain.mono hself (Nat.le_refl _)) (hself.mono hagain (Nat.le_refl _))

theorem toBits_mono {target other : Word256} (h : target ≤ other) :
    toBits target ≤ toBits other := by
  by_cases hzero : target = 0
  · subst hzero
    exact UInt32.zero_le
  · have hother : other ≠ 0 := by
      rintro rfl
      exact hzero (BitVec.le_zero_iff.mp h)
    exact (writes_toBits hzero).mono (writes_toBits hother) h

/-- The bits of a target denote the best approximation from below, a target that bits denote is
written exactly, what was read is written again as it was, and targets are written in order. -/
theorem toBits_best (target : Word256) :
    RoundsDown (toBits target) target ∧
    (∀ bits, ofBits bits = ⟨target, false, false⟩ → (ofBits (toBits target)).target = target) ∧
    toBits (ofBits (toBits target)).target = toBits target ∧
    ∀ other, target ≤ other → toBits target ≤ toBits other ∧
      (ofBits (toBits target)).target ≤ (ofBits (toBits other)).target := by
  have hbest := roundsDown_toBits target
  refine ⟨hbest, ?_, toBits_target_toBits target, fun other hle => ⟨toBits_mono hle, ?_⟩⟩
  · intro bits hbits
    have hgreatest := hbest.greatest bits
    rw [hbits] at hgreatest
    exact BitVec.le_antisymm hbest.target_le (hgreatest rfl rfl (BitVec.le_refl _))
  · exact (roundsDown_toBits other).greatest _ hbest.unsigned hbest.fits
      (BitVec.le_trans hbest.target_le hle)

/-- One byte with its highest bit set takes the size of two. -/
example : toBits 0x80 = 0x02008000 := by decide

end BlockProduction.CompactTarget

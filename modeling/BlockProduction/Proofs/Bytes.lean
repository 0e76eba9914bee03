import BlockProduction.Hash
import Mathlib

/-!
# Numbers and hashes as byte strings

Reading back what was written gives the number modulo the width, and hashes are
told apart by their bytes.
-/

namespace BlockProduction

theorem ofLeBytes_leBytes (width n : Nat) :
    ofLeBytes (leBytes width n) = n % 256 ^ width := by
  induction width generalizing n with
  | zero => simp [leBytes, ofLeBytes, Nat.mod_one]
  | succ width ih =>
      have hlow : (UInt8.ofNat n).toNat = n % 256 := UInt8.toNat_ofNat'
      rw [leBytes, ofLeBytes, ih, hlow, Nat.pow_succ', Nat.mod_mul]

theorem ofLeBytes_lt (bs : Bytes) : ofLeBytes bs < 256 ^ bs.length := by
  induction bs with
  | nil => simp [ofLeBytes]
  | cons b rest ih =>
      have hb : b.toNat < 256 := b.toNat_lt
      simp only [ofLeBytes, List.length_cons, Nat.pow_succ]
      omega

/-- A number that fits into a width is read back. -/
theorem ofLeBytes_leBytes_of_lt {width n : Nat} (h : n < 256 ^ width) :
    ofLeBytes (leBytes width n) = n := by
  rw [ofLeBytes_leBytes, Nat.mod_eq_of_lt h]

theorem leBytes_inj {width a b : Nat} (ha : a < 256 ^ width) (hb : b < 256 ^ width)
    (h : leBytes width a = leBytes width b) : a = b := by
  rw [← ofLeBytes_leBytes_of_lt ha, h, ofLeBytes_leBytes_of_lt hb]

theorem leBytes_ofLeBytes_of_length {width : Nat} {bs : Bytes} (h : bs.length = width) :
    leBytes width (ofLeBytes bs) = bs := by
  rw [← h, leBytes_ofLeBytes]

theorem ofLeBytes_lt_of_length {width : Nat} {bs : Bytes} (h : bs.length = width) :
    ofLeBytes bs < 256 ^ width := by
  rw [← h]
  exact ofLeBytes_lt bs

namespace Hash256

theorem bytes_ofBytes {bs : Bytes} (h : bs.length = 32) : (ofBytes bs).bytes = bs := by
  have hlength : bs.reverse.length = 32 := by simp [h]
  have hlt : ofLeBytes bs.reverse < 2 ^ 256 := by simpa [hlength] using ofLeBytes_lt bs.reverse
  have hback := leBytes_ofLeBytes bs.reverse
  rw [hlength] at hback
  rw [bytes, ofBytes, BitVec.toNat_ofNat, Nat.mod_eq_of_lt hlt, hback, List.reverse_reverse]

@[simp] theorem ofBytes_bytes (h : Hash256) : ofBytes h.bytes = h := by
  have hvalue : (ofBytes h.bytes).value = h.value := by
    apply BitVec.eq_of_toNat_eq
    have hlt := h.value.isLt
    simp only [ofBytes, bytes, List.reverse_reverse, ofLeBytes_leBytes, BitVec.toNat_ofNat]
    omega
  cases h
  exact congrArg mk hvalue

theorem bytes_inj {a b : Hash256} : a.bytes = b.bytes ↔ a = b :=
  ⟨fun h => by rw [← ofBytes_bytes a, h, ofBytes_bytes], fun h => h ▸ rfl⟩

end Hash256

end BlockProduction

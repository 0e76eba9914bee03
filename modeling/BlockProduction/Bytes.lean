/-!
# Byte strings

Byte strings are lists of bytes.  Fixed-width numbers are written with their
least significant byte first; reading back what was written gives the number
modulo the width.
-/

namespace BlockProduction

abbrev Bytes := List UInt8

/-- The low `width` bytes of a number, least significant byte first. -/
def leBytes : (width : Nat) → (n : Nat) → Bytes
  | 0, _ => []
  | width + 1, n => UInt8.ofNat n :: leBytes width (n / 256)

/-- The number whose bytes are given, least significant byte first. -/
def ofLeBytes : Bytes → Nat
  | [] => 0
  | b :: rest => b.toNat + 256 * ofLeBytes rest

@[simp] theorem leBytes_length (width n : Nat) : (leBytes width n).length = width := by
  induction width generalizing n with
  | zero => rfl
  | succ width ih => simp [leBytes, ih]

theorem leBytes_ofLeBytes (bs : Bytes) : leBytes bs.length (ofLeBytes bs) = bs := by
  induction bs with
  | nil => rfl
  | cons b rest ih =>
      have hb : b.toNat < 256 := b.toNat_lt
      have hdiv : (b.toNat + 256 * ofLeBytes rest) / 256 = ofLeBytes rest := by omega
      have hlow : UInt8.ofNat (b.toNat + 256 * ofLeBytes rest) = b := by
        apply UInt8.toNat_inj.mp
        rw [UInt8.toNat_ofNat']
        omega
      simp [leBytes, ofLeBytes, hdiv, hlow, ih]

end BlockProduction

import BlockProduction.Text.Hex

/-!
# 256-bit hashes

A hash is a string of exactly 32 bytes, held as the number whose most
significant byte is the first: hashes are ordered by their bytes, first byte
first.  Where they are compared with difficulty targets, the first byte is the
least significant one.
-/

namespace BlockProduction

/-- A hash: 32 bytes in the order in which they are serialized. -/
structure Hash256 where
  /-- The bytes as a number, the first one most significant. -/
  value : BitVec 256
  deriving DecidableEq

namespace Hash256

def bytes (h : Hash256) : Bytes :=
  (leBytes 32 h.value.toNat).reverse

/-- The hash with the given 32 bytes. -/
def ofBytes (bs : Bytes) : Hash256 :=
  ⟨BitVec.ofNat 256 (ofLeBytes bs.reverse)⟩

@[simp] theorem length_bytes (h : Hash256) : h.bytes.length = 32 := by
  simp [bytes]

def fill (b : UInt8) : Hash256 :=
  ofBytes (List.replicate 32 b)

def zero : Hash256 :=
  fill 0

instance : Inhabited Hash256 := ⟨zero⟩

/-- The order of hashes is the order of their byte strings. -/
instance : Ord Hash256 := ⟨fun a b => compare a.value.toNat b.value.toNat⟩

/-- Whether one hash is the other or comes before it. -/
def le (a b : Hash256) : Bool :=
  (compare a b).isLE

theorem le_iff {a b : Hash256} : le a b = true ↔ a.value.toNat ≤ b.value.toNat :=
  Nat.isLE_compare

theorem le_total (a b : Hash256) : (le a b || le b a) = true := by
  simp only [Bool.or_eq_true, le_iff]
  omega

theorem le_trans (a b c : Hash256) (hab : le a b = true) (hbc : le b c = true) : le a c = true :=
  le_iff.mpr (Nat.le_trans (le_iff.mp hab) (le_iff.mp hbc))

theorem le_antisymm {a b : Hash256} (hab : le a b = true) (hba : le b a = true) : a = b := by
  have hvalue : a.value = b.value :=
    BitVec.eq_of_toNat_eq (Nat.le_antisymm (le_iff.mp hab) (le_iff.mp hba))
  cases a
  cases b
  exact congrArg mk hvalue

/-- A word as a hash: its bytes, least significant first. -/
def ofWord (w : Word256) : Hash256 :=
  ofBytes (leBytes 32 w.toNat)

/-- A hash as a word: the integer whose least significant byte comes first. -/
def toWord (h : Hash256) : Word256 :=
  BitVec.ofNat 256 (ofLeBytes h.bytes)

/-- A hash as text: the marker and 64 digits, first byte first. -/
def text (h : Hash256) : String :=
  "0x" ++ Hex.encode h.bytes

/-- A hash from exactly 64 digits and blanks, with or without the marker.  The
bytes that blanks leave out are missing at the end, and stand as zero. -/
def ofChars? (text : List Char) : Option Hash256 :=
  let digits := Hex.dropMarker text
  if digits.length = 64 then
    (Hex.spacedBytes? digits).map fun bs =>
      ofBytes (bs ++ List.replicate (32 - bs.length) 0)
  else none

end Hash256

end BlockProduction

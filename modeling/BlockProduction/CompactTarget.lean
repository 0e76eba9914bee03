import BlockProduction.Hash

/-!
# Compact difficulty targets

A target is a ceiling for the hash of a header, read as a little-endian
integer: the higher the target, the easier the work.  Its compact form has the
size of the target in bytes in the top byte, a sign in bit 23 and the leading
digits in the low 23 bits.
-/

namespace BlockProduction

structure CompactTarget where
  /-- The ceiling; digits beyond 256 bits are dropped. -/
  target : Word256
  /-- The sign was set and the digits are not zero. -/
  negative : Bool
  /-- The value does not fit into 256 bits. -/
  overflow : Bool
  deriving DecidableEq

namespace CompactTarget

/-- The sign bit of the compact form. -/
def signBit : Nat := 0x00800000

/-- The lowest bit of the size in the compact form. -/
def sizeUnit : Nat := 0x01000000

/-- The digits of compact bits, moved down where the size is below three bytes. -/
def digits (bits : UInt32) : Nat :=
  (bits.toNat % signBit) >>> (8 * (3 - bits.toNat / sizeUnit))

/-- Read compact bits. -/
def ofBits (bits : UInt32) : CompactTarget :=
  let size := bits.toNat / sizeUnit
  let word := digits bits
  { target := BitVec.ofNat 256 (word <<< (8 * (size - 3)))
    negative := word != 0 && bits.toNat.testBit 23
    overflow := word != 0
      && (size > 34 || (word > 0xff && size > 33) || (word > 0xffff && size > 32)) }

/-- The number of bits of a number, without leading zeros. -/
def bitLength (n : Nat) : Nat :=
  if n = 0 then 0 else n.log2 + 1

/-- Write a target in compact form: its three leading bytes, or its two leading
bytes where the third would set the sign. -/
def toBits (target : Word256) : UInt32 :=
  let n := target.toNat
  let size := (bitLength n + 7) / 8
  let word := (n <<< (8 * (3 - size))) >>> (8 * (size - 3))
  if word.testBit 23 then
    UInt32.ofNat (word / 256 + (size + 1) * sizeUnit)
  else
    UInt32.ofNat (word + size * sizeUnit)

/-- Usable as a ceiling under the easiest allowed target. -/
def isValidUnder (t : CompactTarget) (limit : Word256) : Bool :=
  !t.negative && !t.overflow && t.target != 0 && t.target.toNat ≤ limit.toNat

/-- The proof-of-work rule: the bits denote a usable target and the hash, as a
little-endian integer, does not exceed it. -/
def meets (hash : Hash256) (bits : UInt32) (limit : Word256) : Bool :=
  let t := ofBits bits
  t.isValidUnder limit && hash.toWord.toNat ≤ t.target.toNat

/-- A 256-bit word as a float: its four 64-bit limbs, the highest first, each
rounded, and so each multiplication and each sum. -/
def toFloat (w : Word256) : Float :=
  [3, 2, 1, 0].foldl
    (fun acc i => acc * 18446744073709551616.0 + (UInt64.ofNat (w.toNat >>> (64 * i))).toFloat) 0.0

/-- How much harder a target is than the easiest allowed one; zero for a zero target. -/
def relativeDifficulty (bits : UInt32) (limit : Word256) : Float :=
  let target := (ofBits bits).target
  if target = 0 then 0.0 else toFloat limit / toFloat target

/-- A target in words: its bits and the number of leading zero bytes. -/
def describe (bits : UInt32) : String :=
  let zeros := (256 - bitLength (ofBits bits).target.toNat) / 8
  "bits " ++ Hex.padded 8 bits.toNat ++ ": ~" ++ toString zeros ++ " leading zero bytes"

end CompactTarget

end BlockProduction

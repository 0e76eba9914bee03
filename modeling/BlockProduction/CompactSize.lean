import BlockProduction.Bytes

/-!
# Variable-length integers

A length in front of a byte string takes one, three, five or nine bytes: small
values stand for themselves, larger ones follow a marker that gives their width.
-/

namespace BlockProduction.CompactSize

/-- The shortest of the four forms that holds the value. -/
def encode (value : UInt64) : Bytes :=
  let n := value.toNat
  if n < 0xfd then [UInt8.ofNat n]
  else if n < 0x10000 then 0xfd :: leBytes 2 n
  else if n < 0x100000000 then 0xfe :: leBytes 4 n
  else 0xff :: leBytes 8 n

/-- Append an integer to a byte string. -/
def append (out : Bytes) (value : UInt64) : Bytes :=
  out ++ encode value

def counted (bs : Bytes) : Bytes :=
  encode (UInt64.ofNat bs.length) ++ bs

end BlockProduction.CompactSize

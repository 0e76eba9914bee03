import BlockProduction.Bytes
import BlockProduction.Word

/-!
# Hexadecimal text

Bytes are written as two lower-case digits each; digits of either case are
read.  A 256-bit word is written without leading zeros behind the marker.

Words and hashes may be read from digits with blanks among them.  A blank holds
no digit, but it counts for the length of the text, and that length alone
decides how the digits are paired: when it is odd, the first digit is a byte of
its own.  A digit that is left without a partner at the end is dropped.
-/

namespace BlockProduction.Hex

def digit (value : Nat) : Char :=
  if value < 10 then Char.ofNat (48 + value) else Char.ofNat (87 + value)

def digitValue? (c : Char) : Option Nat :=
  if '0' ≤ c ∧ c ≤ '9' then some (c.toNat - 48)
  else if 'a' ≤ c ∧ c ≤ 'f' then some (c.toNat - 87)
  else if 'A' ≤ c ∧ c ≤ 'F' then some (c.toNat - 55)
  else none

def encodeChars (bs : Bytes) : List Char :=
  bs.flatMap fun b => [digit (b.toNat / 16), digit (b.toNat % 16)]

/-- Bytes as text, without a marker. -/
def encode (bs : Bytes) : String :=
  String.ofList (encodeChars bs)

/-- Bytes from pairs of digits; an odd digit or any other character is refused. -/
def decodeChars : List Char → Option Bytes
  | [] => some []
  | [_] => none
  | hi :: lo :: rest => do
      let h ← digitValue? hi
      let l ← digitValue? lo
      let bs ← decodeChars rest
      return UInt8.ofNat (16 * h + l) :: bs

/-- The number that a row of digits denotes. -/
def numberOfChars (cs : List Char) : Option Nat :=
  cs.foldlM (fun acc c => (digitValue? c).map (16 * acc + ·)) 0

/-- The characters that may stand among the digits of a word or a hash. -/
def isBlank (c : Char) : Bool :=
  c == ' ' || c == '\t' || c == '\n' || c == '\r'

/-- The values of the digits of a text in order, blanks left out; any other
character is refused. -/
def digitValues? (cs : List Char) : Option (List Nat) :=
  (cs.filter fun c => !isBlank c).mapM digitValue?

/-- One byte from every two digits; a last digit without a partner is dropped. -/
def pairDigits : List Nat → Bytes
  | hi :: lo :: rest => UInt8.ofNat (16 * hi + lo) :: pairDigits rest
  | _ => []

/-- The bytes of a text of digits and blanks. -/
def spacedBytes? (cs : List Char) : Option Bytes :=
  (digitValues? cs).map fun digits =>
    pairDigits (if cs.length % 2 = 0 then digits else 0 :: digits)

/-- Digits without a leading marker, if there is one. -/
def dropMarker : List Char → List Char
  | '0' :: 'x' :: rest => rest
  | cs => cs

/-- Digits without any leading markers, however many there are. -/
def dropMarkers : List Char → List Char
  | '0' :: 'x' :: rest => dropMarkers rest
  | cs => cs

/-- A 256-bit word as text: the marker and the digits without leading zeros. -/
def ofWord (w : Word256) : String :=
  "0x" ++ String.ofList (Nat.toDigits 16 w.toNat)

/-- A 256-bit word from 1 to 64 digits and blanks, with or without the marker;
its bytes are read with the most significant one first. -/
def word? (text : List Char) : Option Word256 :=
  let digits := dropMarker text
  if digits.isEmpty || digits.length > 64 then none
  else (spacedBytes? digits).map fun bs => BitVec.ofNat 256 (ofLeBytes bs.reverse)

/-- The digits of a number, at least `width` of them. -/
def padded (width n : Nat) : String :=
  let digits := Nat.toDigits 16 n
  String.ofList (List.replicate (width - digits.length) '0' ++ digits)

end BlockProduction.Hex

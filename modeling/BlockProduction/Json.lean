import BlockProduction.Word

/-!
# JSON values

A value keeps what its readers may ask about: texts hold code points as they
were written, surrogates included, and objects hold their members in order with
repetitions.  Only a reader decides what it refuses.
-/

namespace BlockProduction

/-- A text between quotes: its code points, where an escaped surrogate without
its partner counts as one, and whether a control character stood unescaped. -/
structure JsonText where
  points : List Nat
  bareControl : Bool
  deriving DecidableEq, Inhabited

namespace JsonText

/-- Whether a code point is half of a surrogate pair. -/
def isSurrogate (p : Nat) : Bool :=
  0xd800 ≤ p && p ≤ 0xdfff

/-- A text without surrogates and bare control characters. -/
def ofString (s : String) : JsonText :=
  ⟨s.toList.map Char.toNat, false⟩

/-- The characters of a well-formed text. -/
def chars? (t : JsonText) : Option (List Char) :=
  if t.bareControl || t.points.any isSurrogate then none
  else some (t.points.map Char.ofNat)

/-- The characters of a well-formed text, as a string. -/
def string? (t : JsonText) : Option String :=
  t.chars?.map String.ofList

/-- The bytes of one code point; a lone surrogate takes three bytes. -/
def utf8 (p : Nat) : List UInt8 :=
  if p < 0x80 then [UInt8.ofNat p]
  else if p < 0x800 then [UInt8.ofNat (0xc0 + p / 64), UInt8.ofNat (0x80 + p % 64)]
  else if p < 0x10000 then
    [UInt8.ofNat (0xe0 + p / 4096), UInt8.ofNat (0x80 + p / 64 % 64), UInt8.ofNat (0x80 + p % 64)]
  else
    [UInt8.ofNat (0xf0 + p / 262144), UInt8.ofNat (0x80 + p / 4096 % 64),
      UInt8.ofNat (0x80 + p / 64 % 64), UInt8.ofNat (0x80 + p % 64)]

/-- The bytes of any text, well-formed or not. -/
def bytes (t : JsonText) : List UInt8 :=
  t.points.flatMap utf8

end JsonText

inductive Json where
  | null
  | bool (b : Bool)
  /-- A number without fraction, exponent or negative zero. -/
  | int (n : Int)
  /-- Any other number. -/
  | real (literal : String)
  | text (t : JsonText)
  | array (items : List Json)
  | object (members : List (JsonText × Json))
  deriving Inhabited

namespace Json

def str (s : String) : Json :=
  text (JsonText.ofString s)

def obj (members : List (String × Json)) : Json :=
  object (members.map fun m => (JsonText.ofString m.1, m.2))

def nat (n : Nat) : Json :=
  int (Int.ofNat n)

end Json

end BlockProduction

import BlockProduction.Json
import BlockProduction.Text.Hex

/-!
# Reading JSON

The grammar is the strict one: no comments, no trailing commas, no leading
zeros, blanks only around tokens.  Each reader takes what is left of the text
and returns a value with what is left after it.  Readers of nested values are
bounded by twice the length of the text, since every second step takes a
character.
-/

namespace BlockProduction.Json

def isBlank (c : Char) : Bool :=
  c == ' ' || c == '\n' || c == '\t' || c == '\r'

def skipBlanks (cs : List Char) : List Char :=
  cs.dropWhile isBlank

/-- What is left after a fixed word. -/
def afterWord : (word : List Char) → List Char → Option (List Char)
  | [], cs => some cs
  | w :: word, c :: cs => if w = c then afterWord word cs else none
  | _ :: _, [] => none

def fourDigits (a b c d : Char) : Option Nat :=
  Hex.numberOfChars [a, b, c, d]

def shortEscape? : Char → Option Nat
  | '"' => some 0x22
  | '\\' => some 0x5c
  | '/' => some 0x2f
  | 'b' => some 0x08
  | 'f' => some 0x0c
  | 'n' => some 0x0a
  | 'r' => some 0x0d
  | 't' => some 0x09
  | _ => none

/-- Add a code point to the reversed code points read so far: the second half
of a surrogate pair joins its first half where that was escaped just before. -/
def joinUnit (unit : Nat) : (afterHigh : Bool) → List Nat → List Nat
  | true, high :: rest =>
      if 0xdc00 ≤ unit && unit ≤ 0xdfff then
        ((high - 0xd800) * 0x400 + (unit - 0xdc00) + 0x10000) :: rest
      else unit :: high :: rest
  | _, points => unit :: points

/-- The rest of a text up to its closing quote.  `afterHigh` tells whether the
last unit was an escaped first half of a surrogate pair. -/
def readText (points : List Nat) (bare afterHigh : Bool) :
    List Char → Option (JsonText × List Char)
  | [] => none
  | '"' :: rest => some (⟨points.reverse, bare⟩, rest)
  | '\\' :: 'u' :: a :: b :: c :: d :: rest =>
      match fourDigits a b c d with
      | none => none
      | some unit =>
          readText (joinUnit unit afterHigh points) bare
            (0xd800 ≤ unit && unit ≤ 0xdbff) rest
  | '\\' :: e :: rest =>
      match shortEscape? e with
      | none => none
      | some p => readText (p :: points) bare false rest
  | c :: rest =>
      if c = '\\' then none
      else readText (c.toNat :: points) (bare || c.toNat < 0x20) false rest

/-- A row of at least one digit, and what is left. -/
def readDigits (cs : List Char) : Option (List Char × List Char) :=
  let digits := cs.takeWhile Char.isDigit
  if digits.isEmpty then none else some (digits, cs.dropWhile Char.isDigit)

/-- The digits before the point: one zero, or a row that starts with another digit. -/
def readWhole : List Char → Option (List Char × List Char)
  | '0' :: rest =>
      match rest with
      | c :: _ => if c.isDigit then none else some (['0'], rest)
      | [] => some (['0'], rest)
  | cs => readDigits cs

/-- The fraction, if there is one. -/
def readFraction : List Char → Option (List Char × List Char)
  | '.' :: rest => (readDigits rest).map fun (digits, left) => ('.' :: digits, left)
  | cs => some ([], cs)

/-- The exponent, if there is one. -/
def readExponent : List Char → Option (List Char × List Char)
  | e :: rest =>
      if e = 'e' || e = 'E' then
        match rest with
        | s :: left =>
            if s = '+' || s = '-' then
              (readDigits left).map fun (digits, left) => (e :: s :: digits, left)
            else (readDigits rest).map fun (digits, left) => (e :: digits, left)
        | [] => none
      else some ([], e :: rest)
  | [] => some ([], [])

/-- The number that a row of decimal digits denotes. -/
def decimal (digits : List Char) : Nat :=
  digits.foldl (fun acc c => 10 * acc + (c.toNat - 48)) 0

/-- A number; `negative` tells whether a sign came before it. -/
def readNumber (negative : Bool) (cs : List Char) : Option (Json × List Char) := do
  let (whole, left) ← readWhole cs
  let (fraction, left) ← readFraction left
  let (exponent, left) ← readExponent left
  let n := decimal whole
  if fraction.isEmpty && exponent.isEmpty && !(negative && n == 0) then
    return (.int (if negative then -(n : Int) else n), left)
  else
    let sign := if negative then ['-'] else []
    return (.real (String.ofList (sign ++ whole ++ fraction ++ exponent)), left)

mutual

/-- One value at the start of a text without blanks before it. -/
def readValue : (fuel : Nat) → List Char → Option (Json × List Char)
  | 0, _ => none
  | fuel + 1, cs =>
      match cs with
      | [] => none
      | '"' :: rest => (readText [] false false rest).map fun (t, left) => (.text t, left)
      | '[' :: rest =>
          match skipBlanks rest with
          | ']' :: left => some (.array [], left)
          | left => readItems fuel [] left
      | '\x7b' :: rest =>
          match skipBlanks rest with
          | '\x7d' :: left => some (.object [], left)
          | left => readMembers fuel [] left
      | '-' :: rest => readNumber true rest
      | 'n' :: rest => (afterWord ['u', 'l', 'l'] rest).map fun left => (.null, left)
      | 't' :: rest => (afterWord ['r', 'u', 'e'] rest).map fun left => (.bool true, left)
      | 'f' :: rest => (afterWord ['a', 'l', 's', 'e'] rest).map fun left => (.bool false, left)
      | _ => readNumber false cs

/-- The items of an array from the first or the next one on. -/
def readItems : (fuel : Nat) → (items : List Json) → List Char → Option (Json × List Char)
  | 0, _, _ => none
  | fuel + 1, items, cs =>
      match readValue fuel cs with
      | none => none
      | some (item, left) =>
          match skipBlanks left with
          | ']' :: left => some (.array (item :: items).reverse, left)
          | ',' :: left => readItems fuel (item :: items) (skipBlanks left)
          | _ => none

/-- The members of an object from the first or the next one on. -/
def readMembers :
    (fuel : Nat) → (members : List (JsonText × Json)) → List Char → Option (Json × List Char)
  | 0, _, _ => none
  | fuel + 1, members, '"' :: cs =>
      match readText [] false false cs with
      | none => none
      | some (name, left) =>
          match skipBlanks left with
          | ':' :: left =>
              match readValue fuel (skipBlanks left) with
              | none => none
              | some (item, left) =>
                  match skipBlanks left with
                  | '\x7d' :: left => some (.object ((name, item) :: members).reverse, left)
                  | ',' :: left => readMembers fuel ((name, item) :: members) (skipBlanks left)
                  | _ => none
          | _ => none
  | _ + 1, _, _ => none

end

/-- Whether a bare control character stands in some text of a value, names included. -/
def hasBareControl : Json → Bool
  | .text t => t.bareControl
  | .array items => items.attach.any fun ⟨item, _⟩ => hasBareControl item
  | .object members =>
      members.attach.any fun ⟨m, _⟩ => m.1.bareControl || hasBareControl m.2
  | _ => false
termination_by j => sizeOf j
decreasing_by
  all_goals simp_wf
  · rename_i h
    have := List.sizeOf_lt_of_mem h
    omega
  · rename_i h
    have h1 := List.sizeOf_lt_of_mem h
    have h2 : sizeOf m.2 < sizeOf m := by
      obtain ⟨name, value⟩ := m
      show sizeOf value < sizeOf (name, value)
      rw [Prod.mk.sizeOf_spec]
      omega
    omega

/-- A whole text: one value with nothing but blanks around it. -/
def parse (cs : List Char) : Option Json :=
  match readValue (2 * cs.length + 2) (skipBlanks cs) with
  | none => none
  | some (value, left) => if (skipBlanks left).isEmpty then some value else none

end BlockProduction.Json

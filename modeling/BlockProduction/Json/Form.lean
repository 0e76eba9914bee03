import BlockProduction.Json.Reader
import BlockProduction.Json.Printer
import BlockProduction.Hash

/-!
# JSON forms of records

A type with a JSON form is written as one value and read back from one value;
reading refuses whatever is not exactly such a value.  A record is an object
with its fields by name, or an array of its fields in order.
-/

namespace BlockProduction

/-- Types that are written to and read from JSON. -/
class JsonForm (α : Type) where
  toJson : α → Json
  ofJson? : Json → Option α

export JsonForm (toJson ofJson?)

namespace Json

/-- A number without fraction and exponent between two bounds. -/
def intWithin? (low high : Int) : Json → Option Int
  | .int n => if low ≤ n && n ≤ high then some n else none
  | _ => none

/-- The characters of a well-formed text. -/
def chars? : Json → Option (List Char)
  | .text t => t.chars?
  | _ => none

def string? (j : Json) : Option String :=
  j.chars?.map String.ofList

def items? : Json → Option (List Json)
  | .array items => some items
  | _ => none

end Json

instance : JsonForm Bool where
  toJson := .bool
  ofJson?
    | .bool b => some b
    | _ => none

instance : JsonForm UInt8 where
  toJson n := .nat n.toNat
  ofJson? j := (j.intWithin? 0 255).map fun n => UInt8.ofNat n.toNat

instance : JsonForm UInt32 where
  toJson n := .nat n.toNat
  ofJson? j := (j.intWithin? 0 4294967295).map fun n => UInt32.ofNat n.toNat

instance : JsonForm UInt64 where
  toJson n := .nat n.toNat
  ofJson? j := (j.intWithin? 0 18446744073709551615).map fun n => UInt64.ofNat n.toNat

instance : JsonForm Int32 where
  toJson n := .int n.toInt
  ofJson? j := (j.intWithin? (-2147483648) 2147483647).map Int32.ofInt

instance : JsonForm Int64 where
  toJson n := .int n.toInt
  ofJson? j := (j.intWithin? (-9223372036854775808) 9223372036854775807).map Int64.ofInt

instance : JsonForm String where
  toJson := .str
  ofJson? := Json.string?

instance : JsonForm Hash256 where
  toJson h := .str h.text
  ofJson? j := j.chars?.bind Hash256.ofChars?

instance : JsonForm Word256 where
  toJson w := .str (Hex.ofWord w)
  ofJson? j := j.chars?.bind Hex.word?

instance [JsonForm α] : JsonForm (List α) where
  toJson xs := .array (xs.map toJson)
  ofJson? j := j.items?.bind fun items => items.mapM ofJson?

namespace Json

def byteArray (bs : Bytes) : Json :=
  toJson bs

/-- Bytes from an array of numbers, or those of any text, well-formed or not. -/
def bytes? : Json → Option Bytes
  | .text t => some t.bytes
  | j => ofJson? j

/-- The members of a record by name.  Of an object, names that the record does
not have are passed over, and a name that it has may stand only once; of an
array, the items belong to the names in order, and there may not be more. -/
def fields? (names : List String) : Json → Option (List (String × Json))
  | .object members => members.foldlM (fun found (key, item) => do
      let name ← key.string?
      if !names.contains name then
        if item.hasBareControl then none else some found
      else if found.any (·.1 == name) then none
      else some ((name, item) :: found)) []
  | .array items =>
      if items.length ≤ names.length then some (names.zip items) else none
  | _ => none

def required [JsonForm α] (fields : List (String × Json)) (name : String) : Option α :=
  (fields.lookup name).bind ofJson?

/-- A field that takes a value of its own when it is missing. -/
def optional [JsonForm α] (fields : List (String × Json)) (name : String) (otherwise : α) :
    Option α :=
  match fields.lookup name with
  | some item => ofJson? item
  | none => some otherwise

/-- One of some names: the name as a text, or an object with the name as its
only member and null as its value. -/
def oneOf? (choices : List (String × α)) : Json → Option α
  | .text t => t.string?.bind fun found => choices.lookup found
  | .object [(name, .null)] => name.string?.bind fun found => choices.lookup found
  | _ => none

end Json

end BlockProduction

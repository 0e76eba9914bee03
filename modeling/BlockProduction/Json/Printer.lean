import BlockProduction.Json
import BlockProduction.Text.Hex

/-!
# Writing JSON

Values are written without blanks; quotes, backslashes and control characters
are escaped, all else stands for itself.  Each writer appends to the text so far.
-/

namespace BlockProduction.Json

def escape (p : Nat) : List Char :=
  if p = 0x22 then ['\\', '"']
  else if p = 0x5c then ['\\', '\\']
  else if p < 0x20 || JsonText.isSurrogate p then '\\' :: 'u' :: (Hex.padded 4 p).toList
  else [Char.ofNat p]

def writeText (out : String) (t : JsonText) : String :=
  (t.points.foldl (fun acc p => (escape p).foldl String.push acc) (out.push '"')).push '"'

mutual

def write (out : String) : Json → String
  | .null => out ++ "null"
  | .bool b => out ++ (if b then "true" else "false")
  | .int n => out ++ toString n
  | .real literal => out ++ literal
  | .text t => writeText out t
  | .array items => (writeItems (out.push '[') true items).push ']'
  | .object members => (writeMembers (out.push '\x7b') true members).push '\x7d'

/-- Items, each but the first behind a comma. -/
def writeItems (out : String) (first : Bool) : List Json → String
  | [] => out
  | item :: rest => writeItems (write (if first then out else out.push ',') item) false rest

/-- Members, each but the first behind a comma. -/
def writeMembers (out : String) (first : Bool) : List (JsonText × Json) → String
  | [] => out
  | (name, item) :: rest =>
      let named := (writeText (if first then out else out.push ',') name).push ':'
      writeMembers (write named item) false rest

end

def print (j : Json) : String :=
  write "" j

end BlockProduction.Json

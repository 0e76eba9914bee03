import BlockProduction.Json.Form
import BlockProduction.Mining.Session

/-!
# JSON forms of mining records
-/

namespace BlockProduction

instance : JsonForm NonceRange where
  toJson r := .obj [("start", toJson r.start), ("end", toJson r.last)]
  ofJson? j := do
    let fs ← j.fields? ["start", "end"]
    return ⟨← Json.required fs "start", ← Json.required fs "end"⟩

namespace MiningState

def name : MiningState → String
  | .idle => "Idle"
  | .hashing => "Hashing"
  | .found => "Found"
  | .cancelled => "Cancelled"
  | .exhausted => "Exhausted"

end MiningState

/-- A state is written as its name. -/
instance : JsonForm MiningState where
  toJson state := .str state.name
  ofJson? := Json.oneOf?
    ([.idle, .hashing, .found, .cancelled, .exhausted].map fun s => (s.name, s))

end BlockProduction

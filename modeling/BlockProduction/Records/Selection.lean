import BlockProduction.Json.Form
import BlockProduction.Selection.Report

/-!
# JSON forms of selection results
-/

namespace BlockProduction

namespace StopReason

def name : StopReason → String
  | .poolExhausted => "PoolExhausted"
  | .considerationBudgetExhausted => "ConsiderationBudgetExhausted"
  | .blockFull => "BlockFull"

end StopReason

/-- A reason is written as its name. -/
instance : JsonForm StopReason where
  toJson reason := .str reason.name
  ofJson? := Json.oneOf?
    ([.poolExhausted, .considerationBudgetExhausted, .blockFull].map fun r => (r.name, r))

instance : JsonForm Inclusion where
  toJson b := .obj
    [("tip_hash", toJson b.tipHash), ("target_height", toJson b.targetHeight),
      ("included", toJson b.included)]
  ofJson? j := do
    let fs ← j.fields? ["tip_hash", "target_height", "included"]
    return {
      tipHash := ← Json.required fs "tip_hash"
      targetHeight := ← Json.required fs "target_height"
      included := ← Json.required fs "included" }

end BlockProduction

import BlockProduction.Chain
import BlockProduction.Json.Form

/-!
# JSON forms of the chain below the block
-/

namespace BlockProduction

instance : JsonForm ChainTip where
  toJson tip := .obj
    [("hash", toJson tip.hash), ("height", toJson tip.height),
      ("median_time_past", toJson tip.medianTimePast), ("next_bits", toJson tip.nextBits)]
  ofJson? j := do
    let fs ← j.fields? ["hash", "height", "median_time_past", "next_bits"]
    return {
      hash := ← Json.required fs "hash"
      height := ← Json.required fs "height"
      medianTimePast := ← Json.required fs "median_time_past"
      nextBits := ← Json.required fs "next_bits" }

instance : JsonForm Confirmation where
  toJson c := .obj
    [("height", toJson c.height), ("median_time_past", toJson c.medianTimePast),
      ("is_coinbase", toJson c.isCoinbase)]
  ofJson? j := do
    let fs ← j.fields? ["height", "median_time_past", "is_coinbase"]
    return {
      height := ← Json.required fs "height"
      medianTimePast := ← Json.required fs "median_time_past"
      isCoinbase := ← Json.required fs "is_coinbase" }

/-- A switch that is missing is on. -/
instance : JsonForm LockFlags where
  toJson flags := .obj
    [("verify_sequence", toJson flags.verifySequence),
      ("median_time_past", toJson flags.medianTimePast)]
  ofJson? j := do
    let fs ← j.fields? ["verify_sequence", "median_time_past"]
    let usual : LockFlags := default
    return {
      verifySequence := ← Json.optional fs "verify_sequence" usual.verifySequence
      medianTimePast := ← Json.optional fs "median_time_past" usual.medianTimePast }

end BlockProduction

import BlockProduction.Json.Form
import BlockProduction.Package

/-!
# JSON forms of transactions and packages
-/

namespace BlockProduction

instance : JsonForm Outpoint where
  toJson o := .obj [("hash", toJson o.hash), ("index", toJson o.index)]
  ofJson? j := do
    let fs ← j.fields? ["hash", "index"]
    return ⟨← Json.required fs "hash", ← Json.required fs "index"⟩

instance : JsonForm TxInput where
  toJson i := .obj [("prevout", toJson i.prevout), ("sequence", toJson i.sequence)]
  ofJson? j := do
    let fs ← j.fields? ["prevout", "sequence"]
    return ⟨← Json.required fs "prevout", ← Json.required fs "sequence"⟩

instance : JsonForm Candidate where
  toJson tx := .obj
    [("hash", toJson tx.hash), ("version", toJson tx.version), ("fee", toJson tx.fee),
      ("weight", toJson tx.weight), ("sigop_cost", toJson tx.sigopCost),
      ("inputs", toJson tx.inputs), ("lock_time", toJson tx.lockTime),
      ("spends_coinbase", toJson tx.spendsCoinbase)]
  ofJson? j := do
    let fs ← j.fields?
      ["hash", "version", "fee", "weight", "sigop_cost", "inputs", "lock_time", "spends_coinbase"]
    return {
      hash := ← Json.required fs "hash"
      version := ← Json.required fs "version"
      fee := ← Json.required fs "fee"
      weight := ← Json.required fs "weight"
      sigopCost := ← Json.required fs "sigop_cost"
      inputs := ← Json.required fs "inputs"
      lockTime := ← Json.required fs "lock_time"
      spendsCoinbase := ← Json.required fs "spends_coinbase" }

/-- A fee rate is written as its number alone. -/
instance : JsonForm FeeRate where
  toJson rate := toJson rate.perUnit
  ofJson? j := (ofJson? j).map FeeRate.mk

instance : JsonForm Package where
  toJson p := .obj
    [("fee", toJson p.fee), ("weight", toJson p.weight), ("sigop_cost", toJson p.sigopCost),
      ("count", toJson p.count)]
  ofJson? j := do
    let fs ← j.fields? ["fee", "weight", "sigop_cost", "count"]
    return {
      fee := ← Json.required fs "fee"
      weight := ← Json.required fs "weight"
      sigopCost := ← Json.required fs "sigop_cost"
      count := ← Json.required fs "count" }

end BlockProduction

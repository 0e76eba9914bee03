import BlockProduction.Block.Template
import BlockProduction.Records.Transaction

/-!
# JSON forms of blocks

Scripts and solutions are written as arrays of bytes; a text is read as its bytes.
-/

namespace BlockProduction

instance : JsonForm Reservation where
  toJson r := .obj [("weight", toJson r.weight), ("sigop_cost", toJson r.sigopCost)]
  ofJson? j := do
    let fs ← j.fields? ["weight", "sigop_cost"]
    return ⟨← Json.required fs "weight", ← Json.required fs "sigop_cost"⟩

instance : JsonForm Coinbase where
  toJson tx := .obj
    [("height", toJson tx.height), ("value", toJson tx.value),
      ("payout_script", Json.byteArray tx.payoutScript), ("extra_nonce", toJson tx.extraNonce)]
  ofJson? j := do
    let fs ← j.fields? ["height", "value", "payout_script", "extra_nonce"]
    return {
      height := ← Json.required fs "height"
      value := ← Json.required fs "value"
      payoutScript := ← (fs.lookup "payout_script").bind Json.bytes?
      extraNonce := ← Json.required fs "extra_nonce" }

instance : JsonForm Header where
  toJson h := .obj
    [("version", toJson h.version), ("prev_hash", toJson h.prevHash),
      ("merkle_root", toJson h.merkleRoot), ("reserved", toJson h.reserved),
      ("time", toJson h.time), ("bits", toJson h.bits), ("nonce", toJson h.nonce),
      ("solution", Json.byteArray h.solution)]
  ofJson? j := do
    let fs ← j.fields?
      ["version", "prev_hash", "merkle_root", "reserved", "time", "bits", "nonce", "solution"]
    return {
      version := ← Json.required fs "version"
      prevHash := ← Json.required fs "prev_hash"
      merkleRoot := ← Json.required fs "merkle_root"
      reserved := ← Json.required fs "reserved"
      time := ← Json.required fs "time"
      bits := ← Json.required fs "bits"
      nonce := ← Json.required fs "nonce"
      solution := ← (fs.lookup "solution").bind Json.bytes? }

instance : JsonForm Template where
  toJson t := .obj
    [("header", toJson t.header), ("height", toJson t.height), ("coinbase", toJson t.coinbase),
      ("subsidy", toJson t.subsidy), ("transactions", toJson t.transactions),
      ("total_weight", toJson t.totalWeight), ("total_sigop_cost", toJson t.totalSigopCost),
      ("total_fees", toJson t.totalFees)]
  ofJson? j := do
    let fs ← j.fields?
      ["header", "height", "coinbase", "subsidy", "transactions", "total_weight",
        "total_sigop_cost", "total_fees"]
    return {
      header := ← Json.required fs "header"
      height := ← Json.required fs "height"
      coinbase := ← Json.required fs "coinbase"
      subsidy := ← Json.required fs "subsidy"
      transactions := ← Json.required fs "transactions"
      totalWeight := ← Json.required fs "total_weight"
      totalSigopCost := ← Json.required fs "total_sigop_cost"
      totalFees := ← Json.required fs "total_fees" }

end BlockProduction

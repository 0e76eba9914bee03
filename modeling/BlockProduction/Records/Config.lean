import BlockProduction.Config
import BlockProduction.Records.Chain

/-!
# JSON forms of configurations

Every setting that is missing keeps its usual value; the usual number of workers
depends on the number of processors.
-/

namespace BlockProduction

namespace SelectorConfig

def names : List String :=
  ["max_block_weight", "max_block_sigops_cost", "block_min_fee_rate", "coinbase_reserved_weight",
    "coinbase_reserved_sigops", "max_candidates_considered", "lock_time_flags"]

end SelectorConfig

instance : JsonForm SelectorConfig where
  toJson c := .obj
    [("max_block_weight", toJson c.maxBlockWeight),
      ("max_block_sigops_cost", toJson c.maxBlockSigopsCost),
      ("block_min_fee_rate", toJson c.blockMinFeeRate),
      ("coinbase_reserved_weight", toJson c.coinbaseReservedWeight),
      ("coinbase_reserved_sigops", toJson c.coinbaseReservedSigops),
      ("max_candidates_considered", toJson c.maxCandidatesConsidered),
      ("lock_time_flags", toJson c.lockTimeFlags)]
  ofJson? j := do
    let fs ← j.fields? SelectorConfig.names
    let usual : SelectorConfig := default
    return {
      maxBlockWeight := ← Json.optional fs "max_block_weight" usual.maxBlockWeight
      maxBlockSigopsCost := ← Json.optional fs "max_block_sigops_cost" usual.maxBlockSigopsCost
      blockMinFeeRate := ← Json.optional fs "block_min_fee_rate" usual.blockMinFeeRate
      coinbaseReservedWeight :=
        ← Json.optional fs "coinbase_reserved_weight" usual.coinbaseReservedWeight
      coinbaseReservedSigops :=
        ← Json.optional fs "coinbase_reserved_sigops" usual.coinbaseReservedSigops
      maxCandidatesConsidered :=
        ← Json.optional fs "max_candidates_considered" usual.maxCandidatesConsidered
      lockTimeFlags := ← Json.optional fs "lock_time_flags" usual.lockTimeFlags }

/-- A script in hexadecimal digits, with any number of markers before them. -/
structure HexScript where
  bytes : Bytes

instance : JsonForm HexScript where
  toJson s := .str (Hex.encode s.bytes)
  ofJson? j := do
    let cs ← j.chars?
    let bytes ← Hex.decodeChars (Hex.dropMarkers cs)
    return ⟨bytes⟩

namespace MiningConfig

def toJson (c : MiningConfig) : Json := .obj
  [("workers", JsonForm.toJson c.workers),
    ("payout_script", JsonForm.toJson (HexScript.mk c.payoutScript)),
    ("extra_nonce", JsonForm.toJson c.extraNonce)]

/-- The settings on a machine with a number of processors. -/
def ofJson? (processors : UInt64) (j : Json) : Option MiningConfig := do
  let fs ← j.fields? ["workers", "payout_script", "extra_nonce"]
  let usual := MiningConfig.usual processors
  let script : HexScript ← Json.optional fs "payout_script" ⟨usual.payoutScript⟩
  return {
    workers := ← Json.optional fs "workers" usual.workers
    payoutScript := script.bytes
    extraNonce := ← Json.optional fs "extra_nonce" usual.extraNonce }

end MiningConfig

instance : JsonForm ConsensusConfig where
  toJson c := .obj
    [("pow_limit", toJson c.powLimit), ("halving_interval", toJson c.halvingInterval),
      ("block_version", toJson c.blockVersion)]
  ofJson? j := do
    let fs ← j.fields? ["pow_limit", "halving_interval", "block_version"]
    let usual : ConsensusConfig := default
    return {
      powLimit := ← Json.optional fs "pow_limit" usual.powLimit
      halvingInterval := ← Json.optional fs "halving_interval" usual.halvingInterval
      blockVersion := ← Json.optional fs "block_version" usual.blockVersion }

namespace Config

def toJson (c : Config) : Json := .obj
  [("selector", JsonForm.toJson c.selector), ("mining", c.mining.toJson),
    ("consensus", JsonForm.toJson c.consensus)]

/-- All settings on a machine with a number of processors. -/
def ofJson? (processors : UInt64) (j : Json) : Option Config := do
  let fs ← j.fields? ["selector", "mining", "consensus"]
  let mining ← match fs.lookup "mining" with
    | some m => MiningConfig.ofJson? processors m
    | none => some (.usual processors)
  return {
    selector := ← Json.optional fs "selector" default
    mining
    consensus := ← Json.optional fs "consensus" default }

/-- Read a configuration from text and refuse it if it has a fault. -/
def ofText (processors : UInt64) (text : List Char) : Except Error Config :=
  match (Json.parse text).bind (ofJson? processors) with
  | none => .error (.invalidConfig .malformed)
  | some config =>
      match config.fault? with
      | some fault => .error (.invalidConfig fault)
      | none => .ok config

end Config

end BlockProduction

import BlockProduction.Selection.Round

/-!
# Configuration

The settings of selection, mining and consensus.  A configuration is used only
if it leaves room for transactions, lets a search run and stays within what
consensus allows.
-/

namespace BlockProduction

def maxBlockWeight : UInt64 := 4000000

def maxBlockSigopCost : UInt64 := 80000

structure SelectorConfig where
  /-- The greatest weight, the coinbase reservation included. -/
  maxBlockWeight : UInt64
  /-- The greatest signature-operation cost, the coinbase reservation included. -/
  maxBlockSigopsCost : UInt64
  /-- The least fee for 1000 units of weight. -/
  blockMinFeeRate : UInt64
  coinbaseReservedWeight : UInt64
  coinbaseReservedSigops : UInt64
  /-- The number of packages considered in a round before it gives up. -/
  maxCandidatesConsidered : UInt64
  lockTimeFlags : LockFlags
  deriving DecidableEq

instance : Inhabited SelectorConfig where
  default :=
    let reservation : Reservation := default
    { maxBlockWeight := 3000000
      maxBlockSigopsCost := maxBlockSigopCost
      blockMinFeeRate := 1000
      coinbaseReservedWeight := reservation.weight
      coinbaseReservedSigops := reservation.sigopCost
      maxCandidatesConsidered := 1000000
      lockTimeFlags := default }

/-- Settings of the search for proof of work and of the payout. -/
structure MiningConfig where
  workers : UInt64
  payoutScript : Bytes
  extraNonce : UInt32
  deriving DecidableEq, Inhabited

/-- The settings of a machine with a number of processors: one worker for each. -/
def MiningConfig.usual (processors : UInt64) : MiningConfig :=
  ⟨max processors 1, [], 0⟩

structure ConsensusConfig where
  /-- The easiest allowed target. -/
  powLimit : Word256
  /-- The number of blocks between halvings of the subsidy. -/
  halvingInterval : UInt32
  blockVersion : Int32
  deriving DecidableEq

instance : Inhabited ConsensusConfig where
  default :=
    { powLimit := BitVec.allOnes 256 >>> 1
      halvingInterval := defaultHalvingInterval
      blockVersion := 4 }

structure Config where
  selector : SelectorConfig
  mining : MiningConfig
  consensus : ConsensusConfig
  deriving DecidableEq, Inhabited

namespace Config

/-- The settings of a machine with a number of processors. -/
def usual (processors : UInt64) : Config :=
  ⟨default, .usual processors, default⟩

/-- The first thing that a configuration may not say, if it says any. -/
def fault? (config : Config) : Option ConfigFault :=
  let s := config.selector
  if BlockProduction.maxBlockWeight < s.maxBlockWeight then
    some (.weightOverMaximum s.maxBlockWeight BlockProduction.maxBlockWeight)
  else if s.maxBlockWeight ≤ s.coinbaseReservedWeight then
    some (.reservationTooHeavy s.coinbaseReservedWeight s.maxBlockWeight)
  else if maxBlockSigopCost < s.maxBlockSigopsCost
      ∨ s.maxBlockSigopsCost ≤ s.coinbaseReservedSigops then
    some (.sigopsOutOfRange s.maxBlockSigopsCost s.coinbaseReservedSigops maxBlockSigopCost)
  else if s.maxCandidatesConsidered = 0 then some .nothingConsidered
  else if config.mining.workers = 0 then some .noWorkers
  else if config.consensus.powLimit = 0 then some .zeroPowLimit
  else if config.consensus.halvingInterval = 0 then some .zeroHalvingInterval
  else none

def validate (config : Config) : Except Error Unit :=
  match config.fault? with
  | some fault => .error (.invalidConfig fault)
  | none => .ok ()

def limits (config : Config) : Limits :=
  ⟨config.selector.maxBlockWeight, config.selector.maxBlockSigopsCost,
    ⟨config.selector.blockMinFeeRate⟩⟩

def toSelector (config : Config) : Selector :=
  { limits := config.limits
    flags := config.selector.lockTimeFlags
    maxConsidered := config.selector.maxCandidatesConsidered
    reservation :=
      ⟨config.selector.coinbaseReservedWeight, config.selector.coinbaseReservedSigops⟩ }

def coinbaseTerms (config : Config) : CoinbaseTerms :=
  { blockVersion := config.consensus.blockVersion
    payoutScript := config.mining.payoutScript
    extraNonce := config.mining.extraNonce
    halvingInterval := config.consensus.halvingInterval }

end Config

end BlockProduction

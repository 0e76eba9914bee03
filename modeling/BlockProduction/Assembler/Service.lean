import BlockProduction.Assembler.Metrics
import BlockProduction.Block.Validity
import BlockProduction.Config
import BlockProduction.Mining.Search

/-!
# The block assembler

The assembler turns the pool and the chain into templates, searches for their
proof of work, and hands mined blocks on.  One search runs at a time; it holds
the only search slot.  Claiming and freeing the slot and writing the status are
steps of their own, since calls may run side by side.
-/

namespace BlockProduction

structure MinedBlock where
  template : Template
  header : Header
  hash : Hash256
  deriving DecidableEq

structure Receipt where
  blockHash : Hash256
  submittedAt : Int64
  accepted : Bool
  deriving DecidableEq

/-- What the assembler drives: the pool, the chain, the solver, where blocks and
batches go, and the clock. -/
structure Ports where
  pool : PoolView
  tip : Except Error ChainTip
  confirmations : Confirmations
  solver : Solver
  /-- What happens while a search runs, before its workers step one after the other. -/
  turns : List Search.Turn
  submit : MinedBlock → Except Error Receipt
  report : Inclusion → Except Error Unit
  /-- The time that a new block is given, in seconds. -/
  now : Int64
  /-- The nanoseconds that a selection or a search takes. -/
  elapsed : UInt64

structure Status where
  mining : Bool
  miningState : MiningState
  roundsCompleted : Nat
  blocksMined : Nat
  lastRound? : Option Nat
  lastTemplateHeight? : Option UInt32
  lastBlockHash? : Option Hash256
  /-- The time at which the last block was found. -/
  lastBlockAt? : Option Int64
  /-- The nonces in a second of the last successful search. -/
  hashRate? : Option Float

instance : Inhabited Status := ⟨⟨false, .idle, 0, 0, none, none, none, none, none⟩⟩

structure Assembler where
  config : Config
  status : Status
  metrics : Metrics
  /-- The flag of the search that holds the slot. -/
  slot? : Option CancelFlag
  flags : FlagStore
  /-- The number of rounds that were started; each round is known by its number. -/
  roundsStarted : Nat

structure AssembledTemplate where
  round : Nat
  template : Template
  stop : StopReason
  skipped : List Skip
  considered : Nat
  inclusion : Inclusion

structure ProducedBlock where
  round : Nat
  block : MinedBlock
  receipt : Receipt

inductive Handover where
  | submitted (block : MinedBlock)
  | reported (batch : Inclusion)
  deriving DecidableEq

namespace Assembler

/-- An assembler that has done nothing; a faulty configuration is refused. -/
def ofConfig (config : Config) : Except Error Assembler :=
  match config.validate with
  | .error e => .error e
  | .ok () =>
      .ok
        { config
          status := default
          metrics := default
          slot? := none
          flags := .empty
          roundsStarted := 0 }

/-! ## Templates -/

/-- A failure to name the tip is one of the chain. -/
def chainError : Error → Error
  | .chain words => .chain words
  | other => .chain other.message

/-- The context of a round: the block is later than the median time past of its tip, unless that is
the last time there is. -/
def roundContext (ports : Ports) (tip : ChainTip) : RoundContext :=
  ⟨tip, max ports.now (tip.medianTimePast + 1)⟩

/-- A round up to a valid template. -/
def selectRound (a : Assembler) (ports : Ports) (round : Nat) : Except Error AssembledTemplate := do
  let tip ← ports.tip.mapError chainError
  let report ← a.config.toSelector.select ports.pool ports.confirmations (roundContext ports tip)
  let template ← report.draft.finalize a.config.coinbaseTerms
  template.validate a.config.limits a.config.consensus.halvingInterval
  return {
    round, template
    stop := report.stop
    skipped := report.skipped
    considered := report.considered
    inclusion := report.inclusion }

def recordTemplate (m : Metrics) (t : AssembledTemplate) (micros : UInt64) : Metrics :=
  t.skipped.foldl (fun m s => m.recordSkip s.reason)
    (m.recordRound t.template.transactions.length t.template.totalFees micros)

def build (a : Assembler) (ports : Ports) : Except Error AssembledTemplate × Assembler :=
  let round := a.roundsStarted
  let a := { a with roundsStarted := round + 1 }
  match a.selectRound ports round with
  | .error e => (.error e, a)
  | .ok t =>
      (.ok t,
        { a with
          metrics := recordTemplate a.metrics t (ports.elapsed / 1000)
          status :=
            { a.status with
              roundsCompleted := a.status.roundsCompleted + 1
              lastRound? := some round
              lastTemplateHeight? := some t.template.height } })

/-! ## The steps of a search -/

/-- Claim the slot with a new flag, unless it is held. -/
def claim (a : Assembler) : Except Error (CancelFlag × Assembler) :=
  match a.slot? with
  | some _ => .error (.internal .searchRunning)
  | none =>
      let (flag, flags) := a.flags.fresh
      .ok (flag, { a with slot? := some flag, flags })

def markHashing (a : Assembler) : Assembler :=
  { a with status := { a.status with mining := true, miningState := .hashing } }

def release (a : Assembler) : Assembler :=
  { a with slot? := none }

/-- The search of a template with the flag that holds the slot. -/
def search (a : Assembler) (ports : Ports) (template : Template) (flag : CancelFlag) : Search :=
  Search.start ⟨ports.solver, template.header, a.config.consensus.powLimit⟩
    a.config.mining.workers.toNat .full flag a.flags

/-- The nonces in a second, if any time has passed. -/
def hashRate? (nonces : Nat) (nanos : UInt64) : Option Float :=
  let seconds := nanos.toFloat / 1000000000.0
  if seconds > 0.0 then some ((UInt64.ofNat nonces).toFloat / seconds) else none

def conclude (a : Assembler) (ports : Ports) (result : Except Error Mined) : Assembler :=
  let millis := ports.elapsed / 1000000
  let status := { a.status with mining := false }
  match result with
  | .ok mined =>
      { a with
        metrics :=
          (a.metrics.recordMining mined.noncesTried mined.solutionsRejected millis).recordBlock
        status :=
          { status with
            miningState := .found
            blocksMined := status.blocksMined + 1
            lastBlockHash? := some mined.hash
            lastBlockAt? := some ports.now
            hashRate? := hashRate? mined.noncesTried ports.elapsed } }
  | .error (.searchCancelled nonces) =>
      { a with
        metrics := (a.metrics.recordMining nonces 0 millis).recordCancelled
        status := { status with miningState := .cancelled } }
  | .error (.noncesExhausted nonces) =>
      { a with
        metrics := a.metrics.recordMining nonces 0 millis
        status := { status with miningState := .exhausted } }
  | .error _ => { a with status := { status with miningState := .idle } }

/-- Record that the caller of a search is gone: its flag is raised, and the
search counts as cancelled. -/
def concludeAbandoned (a : Assembler) (flag : CancelFlag) : Assembler :=
  { a with
    flags := a.flags.raise flag
    metrics := a.metrics.recordCancelled
    status := { a.status with mining := false, miningState := .cancelled } }

/-- Give up a search whose caller is gone: free the slot and record it. -/
def abandon (a : Assembler) (flag : CancelFlag) : Assembler :=
  a.release.concludeAbandoned flag

/-- Start the search of a template: claim the slot and say so. -/
def beginSearch (a : Assembler) (ports : Ports) (template : Template) :
    Except Error (Search × CancelFlag × Assembler) :=
  match a.claim with
  | .error e => .error e
  | .ok (flag, a) =>
      let a := a.markHashing
      .ok (a.search ports template flag, flag, a)

/-- Carry a search to its end, free the slot and record the result. -/
def endSearch (a : Assembler) (ports : Ports) (template : Template) (search : Search) :
    Except Error MinedBlock × Assembler :=
  let search := search.run ports.turns
  let result := search.outcome
  let a := { a with flags := search.flags }
  (result.map fun mined => ⟨template, mined.header, mined.hash⟩, a.release.conclude ports result)

/-! ## Operations -/

/-- Search for the proof of work of a template. -/
def mine (a : Assembler) (ports : Ports) (template : Template) :
    Except Error MinedBlock × Assembler :=
  match a.beginSearch ports template with
  | .error e => (.error e, a)
  | .ok (search, _, a) => a.endSearch ports template search

/-- Raise the flag of the running search; tells whether there is one. -/
def cancel (a : Assembler) : Bool × Assembler :=
  match a.slot? with
  | none => (false, a)
  | some flag => (true, { a with flags := a.flags.raise flag })

/-- A failure to hand a block or a batch on is one of submission. -/
def submissionError : Error → Error
  | .submission words => .submission words
  | other => .submission other.message

/-- Submit a block, and report what it includes if it is accepted. -/
def handOver (ports : Ports) (t : AssembledTemplate) (block : MinedBlock) :
    Except Error ProducedBlock × List Handover :=
  match ports.submit block with
  | .error e => (.error (submissionError e), [.submitted block])
  | .ok receipt =>
      let produced : ProducedBlock := ⟨t.round, block, receipt⟩
      if receipt.accepted then
        match ports.report t.inclusion with
        | .error e => (.error (submissionError e), [.submitted block, .reported t.inclusion])
        | .ok () => (.ok produced, [.submitted block, .reported t.inclusion])
      else (.ok produced, [.submitted block])

/-- Build, mine, submit and report one block; tells what was handed on. -/
def produce (a : Assembler) (ports : Ports) :
    (Except Error ProducedBlock × List Handover) × Assembler :=
  match a.build ports with
  | (.error e, a) => ((.error e, []), a)
  | (.ok t, a) =>
      match a.mine ports t.template with
      | (.error e, a) => ((.error e, []), a)
      | (.ok block, a) => (handOver ports t block, a)

end Assembler

end BlockProduction

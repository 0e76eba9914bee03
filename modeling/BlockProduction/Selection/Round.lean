import BlockProduction.Selection.Queue
import BlockProduction.Selection.Report

/-!
# Selection rounds

A round takes the candidate whose package has the highest fee rate, and includes
the whole package or rejects it.  A rejected candidate is skipped for the rest
of the round together with everything that depends on it, since every package
with it fails in the same way.  A round ends when the queue is empty, when
enough candidates were considered, or when failures pile up against a block
that is almost full.
-/

namespace BlockProduction

/-- The rules of a round. -/
structure Selector where
  limits : Limits
  flags : LockFlags
  /-- The number of candidates after which a round ends. -/
  maxConsidered : UInt64
  reservation : Reservation
  deriving DecidableEq, Inhabited

/-- What stays the same during a round. -/
structure RoundSetting where
  selector : Selector
  graph : CandidateGraph
  confirmations : Confirmations
  context : RoundContext

/-- The progress of a round over `n` candidates. -/
structure Round (n : Nat) where
  queue : RankedQueue n
  draft : Draft
  /-- The verdicts of the gate that are known already. -/
  verdicts : Vector (Option (Option SkipReason)) n
  inBlock : Vector Bool n
  skipped : Vector Bool n
  /-- The skipped candidates, the latest first. -/
  skips : List Skip
  considered : Nat
  /-- Failures since the last package that was included. -/
  failures : Nat

/-- The failures in a row that a round tolerates when the block is nearly full. -/
def maxFailures : Nat := 1000

/-- A block with less weight left than this is nearly full. -/
def fullMargin : UInt64 := 4000

namespace RoundSetting

variable (s : RoundSetting)

/-- The confirmation of what an input spends: outputs of candidates count as
confirmed in the block itself. -/
def confirmation? (input : TxInput) : Option Confirmation :=
  if (s.graph.idOf? input.prevout.hash).isSome then
    some ⟨s.context.targetHeight, s.context.tip.medianTimePast, false⟩
  else s.confirmations input.prevout

/-- Why a transaction may not stand in the block, on its own. -/
def gate? (tx : Candidate) : Option SkipReason :=
  match tx.inputs.mapM s.confirmation? with
  | none => some .missingInputs
  | some confirmations =>
      (Finality.failure? tx s.selector.flags (s.context.cutoff s.selector.flags)
        ⟨s.context.targetHeight, s.context.tip.medianTimePast, confirmations⟩).map .finality

/-- The start of a round: every candidate waits and the block is empty. -/
def start : Round s.graph.size :=
  { queue := .start s.graph
    draft := .start s.context s.selector.reservation
    verdicts := Vector.replicate s.graph.size none
    inBlock := Vector.replicate s.graph.size false
    skipped := Vector.replicate s.graph.size false
    skips := []
    considered := 0
    failures := 0 }

/-- Ask the gate about a candidate, unless its verdict is known, and remember the verdict. -/
def ask (r : Round s.graph.size) (id : Fin s.graph.size) :
    Option SkipReason × Round s.graph.size :=
  match r.verdicts.get id with
  | some verdict => (verdict, r)
  | none =>
      let verdict := s.gate? (s.graph.tx id)
      (verdict, { r with verdicts := put r.verdicts id (some verdict) })

/-- Ask the gate about candidates in order, up to the first that it refuses. -/
def firstRefused (r : Round s.graph.size) :
    List (Fin s.graph.size) → Option (Fin s.graph.size × SkipReason) × Round s.graph.size
  | [] => (none, r)
  | id :: rest =>
      match s.ask r id with
      | (some reason, r) => (some (id, reason), r)
      | (none, r) => firstRefused r rest

def skip (r : Round s.graph.size) (id : Fin s.graph.size) (reason : SkipReason) :
    Round s.graph.size :=
  { r with
    queue := r.queue.remove id
    skipped := put r.skipped id true
    skips := ⟨s.graph.hash id, reason⟩ :: r.skips }

/-- Skip a candidate and everything that depends on it, except what is in the
block or skipped already. -/
def reject (r : Round s.graph.size) (id : Fin s.graph.size) (reason : SkipReason) :
    Round s.graph.size :=
  let r := if r.skipped.get id then r else s.skip r id reason
  (s.graph.descendantsOf id).foldl
    (fun r d =>
      if r.inBlock.get d || r.skipped.get d then r
      else s.skip r d (.ancestorSkipped (s.graph.hash id))) r

/-- The package of a candidate: its ancestors that are not in the block and
itself, ancestors before descendants. -/
def members (r : Round s.graph.size) (head : Fin s.graph.size) : List (Fin s.graph.size) :=
  ((s.graph.ancestorsOf head).filter (fun a => !r.inBlock.get a) ++ [head]).mergeSort s.graph.depthLe

/-- Include a package: its transactions enter the block in order, its sums are
counted, and its transactions leave all other packages. -/
def accept (r : Round s.graph.size) (members : List (Fin s.graph.size)) (p : Package) :
    Except Error (Round s.graph.size) := do
  let draft ← r.draft.pushAll (members.map s.graph.tx)
  let inBlock := members.foldl (fun flags id => put flags id true) r.inBlock
  let queue := members.foldl RankedQueue.remove r.queue
  return { r with
    queue := members.foldl (fun q id => q.onIncluded id inBlock) queue
    draft := draft.commit p
    inBlock
    failures := 0 }

/-- How the consideration of a candidate ends. -/
inductive Considered (n : Nat) where
  | next (r : Round n)
  /-- Too many failures in a row with hardly any room left. -/
  | full (r : Round n)

/-- A rejection that counts as a failure. -/
def fail (r : Round s.graph.size) : Considered s.graph.size :=
  let r := { r with failures := r.failures + 1 }
  if maxFailures < r.failures && s.selector.limits.nearlyFull r.draft.usage fullMargin then
    .full r
  else .next r

/-- Consider the package of a candidate that was taken from the queue. -/
def consider (r : Round s.graph.size) (head : Fin s.graph.size) :
    Except Error (Considered s.graph.size) :=
  let p := r.queue.modified.get head
  match s.selector.limits.check r.draft.usage p with
  | .underpays required =>
      .ok (.next (s.reject r head (.feeRate p.fee p.weight required)))
  | .overflows weight sigopCost =>
      .ok (s.fail (s.reject r head (.limits weight sigopCost)))
  | .fits =>
      let members := s.members r head
      match s.firstRefused r members with
      | (some (id, reason), r) => .ok (s.fail (s.reject r id reason))
      | (none, r) => (s.accept r members p).map .next

def report (r : Round s.graph.size) (stop : StopReason) : SelectionReport :=
  { draft := r.draft, stop, skipped := r.skips.reverse, considered := r.considered }

/-- Go on with a round that may consider `budget` more candidates. -/
def run : (budget : Nat) → Round s.graph.size → Except Error SelectionReport
  | budget, r =>
      match r.queue.pop? with
      | none => .ok (s.report r .poolExhausted)
      | some (head, queue) =>
          match budget with
          | 0 => .ok (s.report r .considerationBudgetExhausted)
          | budget + 1 =>
              match s.consider { r with queue, considered := r.considered + 1 } head with
              | .error e => .error e
              | .ok (.full r) => .ok (s.report r .blockFull)
              | .ok (.next r) => run budget r

end RoundSetting

namespace Selector

/-- One round over a pool view on top of a chain context. -/
def select (selector : Selector) (view : PoolView) (confirmations : Confirmations)
    (context : RoundContext) : Except Error SelectionReport :=
  match CandidateGraph.ofView view with
  | .error e => .error e
  | .ok graph =>
      let s : RoundSetting := { selector, graph, confirmations, context }
      s.run selector.maxConsidered.toNat s.start

end Selector

end BlockProduction

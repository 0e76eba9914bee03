import BlockProduction.Proofs.Selection.Figures
import BlockProduction.Selection.Round

/-!
# Greedy selection without a queue

A round as its rules state it.  All that is kept is what was decided: who is in
the block, who is skipped and why, and whose package was considered.  For every
decision the waiting candidates are compared afresh, and the package of the best
one is judged by the fee floor, the limits and the gate.

How the package of a candidate is summed up is a parameter.  Summing up its
members each time (`recomputed`) is the reference; taking the members that are in
the block out of the full package (`reduced`) is what the queue arrives at.
-/

namespace BlockProduction

/-- What a round over `n` candidates has decided. -/
structure Ledger (n : Nat) where
  /-- The included candidates in block order. -/
  block : List (Fin n)
  /-- The skipped candidates with their reasons, in the order in which they were skipped. -/
  skips : List (Fin n × SkipReason)
  /-- The candidates whose packages were considered, in order. -/
  considered : List (Fin n)
  /-- Failures since the last package that was included. -/
  failures : Nat
  deriving DecidableEq

namespace Ledger

variable {n : Nat}

def empty : Ledger n :=
  ⟨[], [], [], 0⟩

def skipped (l : Ledger n) : List (Fin n) :=
  l.skips.map (·.1)

/-- Whether nothing is decided about a candidate. -/
def isOpen (l : Ledger n) (id : Fin n) : Bool :=
  id ∉ l.block ∧ id ∉ l.skipped ∧ id ∉ l.considered

def consider (l : Ledger n) (head : Fin n) : Ledger n :=
  { l with considered := l.considered ++ [head] }

def extend (l : Ledger n) (members : List (Fin n)) : Ledger n :=
  { l with block := l.block ++ members, failures := 0 }

end Ledger

namespace CandidateGraph

variable (g : CandidateGraph)

/-- A candidate with its ancestors that are not in the block, ancestors first. -/
def remaining (block : List (Fin g.size)) (id : Fin g.size) : List (Fin g.size) :=
  ((g.ancestorsOf id).filter (fun a => a ∉ block) ++ [id]).mergeSort g.depthLe

/-- The package of a candidate, summed up from what remains of it. -/
def recomputed (block : List (Fin g.size)) (id : Fin g.size) : Package :=
  (g.remaining block id).foldl (fun p a => p.add (g.tx a)) .empty

/-- The package of a candidate: the full one, less its ancestors that are in the block. -/
def reduced (block : List (Fin g.size)) (id : Fin g.size) : Package :=
  (block.filter fun a => a ∈ g.ancestorsOf id).foldl (fun p a => p.remove (g.tx a))
    (g.fullPackage id)

/-- The exact fee for a unit of weight. -/
def exactRate (p : Package) : ℚ :=
  p.fee.toNat / p.weight.toNat

/-- The higher rate goes first, then the lower hash. -/
def leads (package : Fin g.size → Package) (a b : Fin g.size) : Bool :=
  exactRate (package b) < exactRate (package a) ∨
    exactRate (package a) = exactRate (package b) ∧ Hash256.le (g.hash a) (g.hash b)

/-- Skip a candidate and everything that depends on it and is not skipped yet. -/
def reject (l : Ledger g.size) (id : Fin g.size) (reason : SkipReason) : Ledger g.size :=
  let below := (g.descendantsOf id).filter fun d => d ∉ l.block ∧ d ∉ l.skipped
  { l with
    skips := l.skips ++ (id, reason) :: below.map fun d => (d, .ancestorSkipped (g.hash id)) }

end CandidateGraph

namespace RoundSetting

variable (s : RoundSetting)

/-- The sums of a block, the reservation included. -/
def usageOf (block : List (Fin s.graph.size)) : Usage :=
  { weight := clampWord (s.selector.reservation.weight.toNat + s.graph.total .weight block)
    sigopCost := clampWord (s.selector.reservation.sigopCost.toNat + s.graph.total .sigopCost block)
    fees := clampWord (s.graph.total .fee block) }

/-- The gate's reason against a candidate, with the candidate. -/
def refusal? (id : Fin s.graph.size) : Option (Fin s.graph.size × SkipReason) :=
  (s.gate? (s.graph.tx id)).map fun reason => (id, reason)

/-- A rejection that counts as a failure; it may end the round. -/
def failed (l : Ledger s.graph.size) : Ledger s.graph.size × Option StopReason :=
  let l := { l with failures := l.failures + 1 }
  if maxFailures < l.failures && s.selector.limits.nearlyFull (s.usageOf l.block) fullMargin then
    (l, some .blockFull)
  else (l, none)

variable (package : List (Fin s.graph.size) → Fin s.graph.size → Package)

/-- The open candidate that leads all others. -/
def best? (l : Ledger s.graph.size) : Option (Fin s.graph.size) :=
  let waiting := s.graph.ids.filter l.isOpen
  waiting.find? fun a => waiting.all fun b => s.graph.leads (package l.block) a b

/-- Decide about the package of a candidate: the fee floor, then the limits, then the gate. -/
def judge (l : Ledger s.graph.size) (head : Fin s.graph.size) :
    Ledger s.graph.size × Option StopReason :=
  let p := package l.block head
  match s.selector.limits.check (s.usageOf l.block) p with
  | .underpays required => (s.graph.reject l head (.feeRate p.fee p.weight required), none)
  | .overflows weight sigopCost => s.failed (s.graph.reject l head (.limits weight sigopCost))
  | .fits =>
      match (s.graph.remaining l.block head).findSome? s.refusal? with
      | some (id, reason) => s.failed (s.graph.reject l id reason)
      | none => (l.extend (s.graph.remaining l.block head), none)

/-- Go on until no candidate is open, `budget` more candidates were considered, or the block
is full. -/
def greedy : (budget : Nat) → Ledger s.graph.size → Ledger s.graph.size × StopReason
  | budget, l =>
      match s.best? package l with
      | none => (l, .poolExhausted)
      | some head =>
          match budget with
          | 0 => (l, .considerationBudgetExhausted)
          | budget + 1 =>
              match s.judge package (l.consider head) head with
              | (l, some stop) => (l, stop)
              | (l, none) => greedy budget l

def draftOf (block : List (Fin s.graph.size)) : Draft :=
  { context := s.context
    reservation := s.selector.reservation
    transactions := block.map s.graph.tx
    usage := s.usageOf block }

def reportOf (l : Ledger s.graph.size) (stop : StopReason) : SelectionReport :=
  { draft := s.draftOf l.block
    stop
    skipped := l.skips.map fun entry => ⟨s.graph.hash entry.1, entry.2⟩
    considered := l.considered.length }

end RoundSetting

/-- The reference for a round: every package is summed up anew for every decision. -/
def Selector.selectNaively (selector : Selector) (view : PoolView) (confirmations : Confirmations)
    (context : RoundContext) : Except Error SelectionReport :=
  match CandidateGraph.ofView view with
  | .error e => .error e
  | .ok graph =>
      let s : RoundSetting := { selector, graph, confirmations, context }
      let outcome := s.greedy graph.recomputed selector.maxConsidered.toNat .empty
      .ok (s.reportOf outcome.1 outcome.2)

end BlockProduction

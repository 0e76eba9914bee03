import BlockProduction.CompactTarget
import BlockProduction.Mining.NonceRange
import BlockProduction.Mining.Solver
import BlockProduction.Mining.Work

/-!
# Mining sessions

A session goes through a range of nonces in increasing order.  It looks at the
cancel flag before each nonce, hands the state of the nonce to the solver, and
accepts a solution that the solver verifies and whose header hash meets the
target.  Its counters add up over all its runs.
-/

namespace BlockProduction

inductive MiningState where
  | idle
  | hashing
  | found
  | cancelled
  | exhausted
  deriving DecidableEq, Inhabited

/-- A header with a proof of work, and what the search has cost. -/
structure Mined where
  header : Header
  hash : Hash256
  noncesTried : Nat
  solutionsRejected : Nat
  deriving DecidableEq

structure MiningJob where
  solver : Solver
  header : Header
  /-- The easiest allowed target. -/
  powLimit : Word256

/-- The state and the counters of a session. -/
structure Session where
  state : MiningState
  noncesTried : Nat
  solutionsRejected : Nat
  deriving DecidableEq

/-- A session that has not run. -/
instance : Inhabited Session := ⟨⟨.idle, 0, 0⟩⟩

/-- The result of a run, with the session after it. -/
abbrev SessionRun := Except Error Mined × Session

namespace Session

/-- The end of a run that saw the flag raised. -/
def cancelled (s : Session) : SessionRun :=
  (.error (.searchCancelled s.noncesTried), { s with state := .cancelled })

/-- The end of a run that has tried all nonces. -/
def exhausted (s : Session) : SessionRun :=
  (.error (.noncesExhausted s.noncesTried), { s with state := .exhausted })

/-- The end of a run whose solver failed: its own failures stay as they are, all
others are reported under its name. -/
def failed (s : Session) (solver : Solver) (e : Error) : SessionRun :=
  let reported := match e with
    | .solver _ => e
    | other => .solver (solver.name ++ ": " ++ other.message)
  (.error reported, { s with state := .idle })

/-- The end of a run that found a solution. -/
def found (s : Session) (header : Header) (nonce : Hash256) (solution : Bytes) (hash : Hash256) :
    SessionRun :=
  (.ok
    { header := { header with nonce, solution }
      hash
      noncesTried := s.noncesTried
      solutionsRejected := s.solutionsRejected },
    { s with state := .found })

end Session

namespace MiningJob

variable (job : MiningJob)

/-- The header hash of a solution that is accepted. -/
def accept? (state : NonceState) (solution : Bytes) : Option Hash256 :=
  if job.solver.verify state solution then
    let hash := state.headerHash solution
    if CompactTarget.meets hash job.header.bits job.powLimit then some hash else none
  else none

/-- What is known of an attempt: the solution accepted last, with its hash, and
the number of solutions that were not accepted. -/
structure Tally where
  accepted? : Option (Bytes × Hash256)
  rejected : Nat
  deriving DecidableEq

/-- Follow an attempt to its end and go on with its result. -/
def follow {α : Type} (state : NonceState) (k : Except Error Bool → Tally → Work α) :
    Attempt → Tally → Work α
  | .finish result, tally => k result tally
  | .offer solution next, tally =>
      match job.accept? state solution with
      | some hash =>
          .note (.answered solution true)
            (follow state k (next true) { tally with accepted? := some (solution, hash) })
      | none =>
          .note (.answered solution false)
            (follow state k (next false) { tally with rejected := tally.rejected + 1 })
  | .poll next, tally => .poll fun raised => follow state k (next raised) tally
  | .raise next, tally => .raise (follow state k next tally)
  | .crash, _ => .crashed

/-- Try a nonce and, after it, as many nonces as `remaining` says. -/
def mineFrom (midstate : Sha256.State) :
    (remaining : Nat) → (nonce : Word256) → Session → Work SessionRun
  | remaining, nonce, s => .poll fun raised =>
      if raised then .done s.cancelled
      else
        let state := NonceState.ofMidstate midstate nonce
        let attempt := job.solver.attempt s.noncesTried state
        let s := { s with noncesTried := s.noncesTried + 1 }
        .note (.handed nonce) <| job.follow state (fun result tally =>
          let s := { s with solutionsRejected := s.solutionsRejected + tally.rejected }
          match result with
          | .error (.searchCancelled _) => .done s.cancelled
          | .error e => .done (s.failed job.solver e)
          | .ok _ =>
              match tally.accepted? with
              | some (solution, hash) => .done (s.found job.header state.nonceBytes solution hash)
              | none =>
                  match remaining with
                  | 0 => .done s.exhausted
                  | remaining + 1 => mineFrom midstate remaining (nonce + 1) s) attempt ⟨none, 0⟩

def run (s : Session) (range : NonceRange) : Work SessionRun :=
  if range.isEmpty then .done s.exhausted
  else job.mineFrom job.header.midstate range.width range.start s

end MiningJob

end BlockProduction

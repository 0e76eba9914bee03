import BlockProduction.Error
import BlockProduction.Mining.NonceState

/-!
# Puzzle solvers

A solver gets the hash state of one nonce.  It offers solutions and is told of
each whether it was accepted, it may look at the cancel flag or raise it, and in
the end it says whether a solution was accepted.  An attempt is the tree of
everything that it may do, so that nothing is assumed of a solver but that each
attempt ends.
-/

namespace BlockProduction

inductive Attempt where
  /-- The end: whether a solution was accepted, or a failure. -/
  | finish (result : Except Error Bool)
  /-- Offer a solution and go on knowing whether it was accepted. -/
  | offer (solution : Bytes) (next : Bool → Attempt)
  /-- Look at the cancel flag and go on knowing whether it is raised. -/
  | poll (next : Bool → Attempt)
  /-- Raise the cancel flag. -/
  | raise (next : Attempt)
  /-- Stop without an answer. -/
  | crash

instance : Inhabited Attempt := ⟨.crash⟩

/-- A puzzle solver.  An attempt may depend on the number of attempts before it
in the same session. -/
structure Solver where
  name : String
  /-- Whether a solution solves the puzzle of a nonce. -/
  verify : NonceState → Bytes → Bool
  attempt : (calls : Nat) → NonceState → Attempt

namespace Solver

/-- The name of a solver that has no name of its own. -/
def defaultName : String := "puzzle-solver"

/-- The puzzle whose only solution is the empty one, which leaves the hash alone
to decide. -/
def null : Solver where
  name := "null-solution"
  verify _ solution := solution.isEmpty
  attempt _ _ := .poll fun cancelled =>
    if cancelled then .finish (.error (.searchCancelled 0))
    else .offer [] fun accepted => .finish (.ok accepted)

instance : Inhabited Solver := ⟨null⟩

/-- A solver that finds nothing and gives up once it sees the flag raised. -/
def stalling : Solver where
  name := defaultName
  verify _ _ := false
  attempt _ _ := .poll fun cancelled =>
    if cancelled then .finish (.error (.searchCancelled 0)) else .finish (.ok false)

end Solver

inductive ScriptEnd where
  /-- Say whether a solution was accepted. -/
  | answer
  /-- Say that a solution was accepted. -/
  | claim
  /-- Raise the flag, then say whether a solution was accepted. -/
  | raise
  | fail (error : Error)
  | crash

structure Script where
  /-- The solutions in the order in which they are offered. -/
  offers : List Bytes
  /-- Whether offering goes on after a solution was accepted. -/
  insist : Bool
  ending : ScriptEnd

instance : Inhabited Script := ⟨⟨[], false, .answer⟩⟩

namespace Script

def conclude (ending : ScriptEnd) (accepted : Bool) : Attempt :=
  match ending with
  | .answer => .finish (.ok accepted)
  | .claim => .finish (.ok true)
  | .raise => .raise (.finish (.ok accepted))
  | .fail error => .finish (.error error)
  | .crash => .crash

/-- The attempt from an offer on. -/
def play (insist : Bool) (ending : ScriptEnd) : (offers : List Bytes) → (accepted : Bool) → Attempt
  | [], accepted => conclude ending accepted
  | solution :: rest, accepted => .offer solution fun taken =>
      if taken && !insist then conclude ending true
      else play insist ending rest (accepted || taken)

def attempt (script : Script) : Attempt :=
  play script.insist script.ending script.offers false

end Script

/-- A solver that plays a script for each nonce and refuses certain solutions. -/
def Solver.scripted (name : String) (refused : List Bytes) (steps : List (Word256 × Script))
    (otherwise : Script) : Solver where
  name
  verify _ solution := !refused.contains solution
  attempt _ s := ((steps.lookup s.nonce).getD otherwise).attempt

end BlockProduction

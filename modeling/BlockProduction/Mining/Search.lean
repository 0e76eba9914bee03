import BlockProduction.Mining.Session

/-!
# Searches by several workers

The workers of a search go through neighbouring parts of a range.  They share a
flag that is linked from the flag of the caller: the first worker to find a
solution raises it to stop the others, and the caller stops them all.

Workers may interleave in any order, and flags may change while they work.  A
list of turns says what happens first; after it the workers step one after the
other, so that every list leads to an end and every course of events has a list.
-/

namespace BlockProduction

/-- A search: what its workers have left to do, the flags, and the flag that the
workers share. -/
structure Search where
  workers : List (Work (Except Error Mined))
  flags : FlagStore
  shared : CancelFlag

namespace MiningJob

/-- The work of one worker: a fresh session over its part of the range, and
raising the shared flag if it finds a solution. -/
def worker (job : MiningJob) (range : NonceRange) : Work (Except Error Mined) :=
  (job.run default range).bind fun (result, _) =>
    match result with
    | .ok mined => .raise (.done (.ok mined))
    | .error e => .done (.error e)

end MiningJob

namespace Search

def start (job : MiningJob) (workers : Nat) (range : NonceRange) (caller : CancelFlag)
    (flags : FlagStore) : Search :=
  let (shared, flags) := flags.linked caller
  { workers := (range.split workers).map job.worker, flags, shared }

/-- One step of the worker with a number, if there is one. -/
def step (s : Search) (i : Nat) : Search :=
  match s.workers[i]? with
  | none => s
  | some work =>
      let (flags, work) := work.step s.shared s.flags
      { s with workers := s.workers.set i work, flags }

inductive Turn where
  /-- The worker with a number takes a step. -/
  | worker (i : Nat)
  /-- Somebody else raises a flag. -/
  | raise (flag : CancelFlag)
  /-- Somebody else lowers a flag. -/
  | reset (flag : CancelFlag)
  deriving DecidableEq

def turn (s : Search) : Turn → Search
  | .worker i => s.step i
  | .raise flag => { s with flags := s.flags.raise flag }
  | .reset flag => { s with flags := s.flags.reset flag }

/-- One step of each worker, one after the other. -/
def stepAll (shared : CancelFlag) :
    FlagStore → List (Work (Except Error Mined)) → FlagStore × List (Work (Except Error Mined))
  | flags, [] => (flags, [])
  | flags, work :: rest =>
      let (flags, work) := work.step shared flags
      let (flags, rest) := stepAll shared flags rest
      (flags, work :: rest)

def sweep (s : Search) : Search :=
  let (flags, workers) := stepAll s.shared s.flags s.workers
  { s with flags, workers }

def isRunning (s : Search) : Bool :=
  s.workers.any fun work => !work.isOver

def total (counters : List Nat) : Nat :=
  counters.foldr (· + ·) 0

@[simp] theorem total_cons (n : Nat) (rest : List Nat) : total (n :: rest) = n + total rest := rfl

/-- The greatest number of steps that all workers have left. -/
def height (s : Search) : Nat :=
  total (s.workers.map Work.height)

theorem height_stepAll_le (shared : CancelFlag) (flags : FlagStore)
    (workers : List (Work (Except Error Mined))) :
    total ((stepAll shared flags workers).2.map Work.height) ≤ total (workers.map Work.height) := by
  induction workers generalizing flags with
  | nil => simp [stepAll]
  | cons work rest ih =>
      have hwork := Work.height_step_le shared flags work
      have hrest := ih (work.step shared flags).1
      simp only [stepAll, List.map_cons, total_cons]
      omega

theorem height_stepAll_lt (shared : CancelFlag) (flags : FlagStore)
    {workers : List (Work (Except Error Mined))} (h : workers.any fun work => !work.isOver) :
    total ((stepAll shared flags workers).2.map Work.height) < total (workers.map Work.height) := by
  induction workers generalizing flags with
  | nil => simp at h
  | cons work rest ih =>
      have hrest := height_stepAll_le shared (work.step shared flags).1 rest
      simp only [stepAll, List.map_cons, total_cons]
      cases hover : work.isOver with
      | false =>
          have hwork := Work.height_step_lt shared flags hover
          omega
      | true =>
          have hwork := Work.height_step_le shared flags work
          have hlt := ih (work.step shared flags).1 (by simpa [hover] using h)
          omega

theorem height_sweep_lt (s : Search) (h : s.isRunning = true) : s.sweep.height < s.height :=
  height_stepAll_lt s.shared s.flags h

/-- A search carried to its end, the workers stepping one after the other. -/
def finish (s : Search) : Search :=
  if _h : s.isRunning then finish s.sweep else s
termination_by s.height
decreasing_by exact height_sweep_lt s (by assumption)

/-- A search carried to its end after some turns. -/
def run (s : Search) (turns : List Turn) : Search :=
  (turns.foldl turn s).finish

/-- The result of a worker that has nothing left to do. -/
def result? : Work (Except Error Mined) → Option (Except Error Mined)
  | .done result => some result
  | .crashed => some (.error (.internal .workerCrashed))
  | _ => none

/-- The results of the workers that have nothing left to do. -/
def results (s : Search) : List (Except Error Mined) :=
  s.workers.filterMap result?

/-! ## Merging the results -/

/-- The nonces that a worker reports; one that failed reports none. -/
def noncesOf : Except Error Mined → Nat
  | .ok mined => mined.noncesTried
  | .error (.searchCancelled n) => n
  | .error (.noncesExhausted n) => n
  | .error _ => 0

/-- The rejected solutions that a worker reports; only a winner reports any. -/
def rejectionsOf : Except Error Mined → Nat
  | .ok mined => mined.solutionsRejected
  | .error _ => 0

def solution? : Except Error Mined → Option Mined
  | .ok mined => some mined
  | .error _ => none

/-- The failure of a worker, unless it was cancelled or tried all its nonces. -/
def failure? : Except Error Mined → Option Error
  | .ok _ => none
  | .error (.searchCancelled _) => none
  | .error (.noncesExhausted _) => none
  | .error e => some e

/-- Whether a worker tried all its nonces in vain. -/
def isExhausted : Except Error Mined → Bool
  | .error (.noncesExhausted _) => true
  | _ => false

/-- The result of a search: the solution of the first worker that has one, with
the sums of all counters; else the failure of the first worker that failed;
else the whole range is exhausted if every part is; else it was cancelled. -/
def merge (results : List (Except Error Mined)) : Except Error Mined :=
  let noncesTried := total (results.map noncesOf)
  match results.findSome? solution? with
  | some mined =>
      .ok { mined with noncesTried, solutionsRejected := total (results.map rejectionsOf) }
  | none =>
      match results.findSome? failure? with
      | some e => .error e
      | none =>
          if results.all isExhausted then .error (.noncesExhausted noncesTried)
          else .error (.searchCancelled noncesTried)

def outcome (s : Search) : Except Error Mined :=
  merge s.results

end Search

/-- Search a range with several workers: the result, and the flags afterwards. -/
def MiningJob.mine (job : MiningJob) (workers : Nat) (range : NonceRange) (caller : CancelFlag)
    (turns : List Search.Turn) (flags : FlagStore) : Except Error Mined × FlagStore :=
  let s := (Search.start job workers range caller flags).run turns
  (s.outcome, s.flags)

end BlockProduction

import BlockProduction.Error
import BlockProduction.Mining.CancelFlag

/-!
# Work in steps

What a worker does, one visible action at a time: it looks at its cancel flag
and goes on knowing whether it is raised, it raises the flag, or it does
something that concerns nobody else but is worth counting.  Work can be carried
out alone, or step by step among other workers.
-/

namespace BlockProduction

inductive MiningEvent where
  /-- A nonce goes to the solver. -/
  | handed (nonce : Word256)
  /-- A solution comes back and is accepted or not. -/
  | answered (solution : Bytes) (accepted : Bool)
  deriving DecidableEq

inductive Work (α : Type) where
  | done (result : α)
  /-- The work stops without a result. -/
  | crashed
  | poll (next : Bool → Work α)
  | raise (next : Work α)
  | note (event : MiningEvent) (next : Work α)

namespace Work

variable {α β : Type}

instance : Inhabited (Work α) := ⟨.crashed⟩

/-- Work that goes on with the result of other work. -/
def bind : Work α → (α → Work β) → Work β
  | .done result, k => k result
  | .crashed, _ => .crashed
  | .poll next, k => .poll fun raised => (next raised).bind k
  | .raise next, k => .raise (next.bind k)
  | .note event next, k => .note event (next.bind k)

def isOver : Work α → Bool
  | .done _ => true
  | .crashed => true
  | _ => false

/-- The greatest number of steps that are left. -/
def height : Work α → Nat
  | .done _ => 0
  | .crashed => 0
  | .poll next => max (next true).height (next false).height + 1
  | .raise next => next.height + 1
  | .note _ next => next.height + 1

def step (flag : CancelFlag) (store : FlagStore) : Work α → FlagStore × Work α
  | .poll next => (store, next (store.isRaised flag))
  | .raise next => (store.raise flag, next)
  | .note _ next => (store, next)
  | work => (store, work)

theorem height_step_le (flag : CancelFlag) (store : FlagStore) (work : Work α) :
    (work.step flag store).2.height ≤ work.height := by
  cases work with
  | poll next => cases h : store.isRaised flag <;> simp [step, height, h] <;> omega
  | _ => simp [step, height]

theorem height_step_lt (flag : CancelFlag) (store : FlagStore) {work : Work α}
    (h : work.isOver = false) : (work.step flag store).2.height < work.height := by
  cases work with
  | poll next => cases hr : store.isRaised flag <;> simp only [step, height, hr] <;> omega
  | raise next => simp [step, height]
  | note event next => simp [step, height]
  | done result => simp [isOver] at h
  | crashed => simp [isOver] at h

/-- Carry work out with nobody else around: the result, unless the work crashes,
and the flags afterwards. -/
def runAlone (flag : CancelFlag) : Work α → FlagStore → Option α × FlagStore
  | .done result, store => (some result, store)
  | .crashed, store => (none, store)
  | .poll next, store => (next (store.isRaised flag)).runAlone flag store
  | .raise next, store => next.runAlone flag (store.raise flag)
  | .note _ next, store => next.runAlone flag store

end Work

end BlockProduction

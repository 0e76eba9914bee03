import BlockProduction.Mining.Search
import Mathlib.Data.List.GetD

/-!
# Flags during a search

A search adds one flag, which its workers share.  Whatever the workers do, no
other flag changes, and as long as nobody else touches the new flag or the one
that it is linked from, only the workers can raise it.
-/

namespace BlockProduction

/-! ## Stores with one more cell -/

namespace FlagStore

variable {base store : FlagStore} {flag : CancelFlag}

/-- The cells of a store, and one more. -/
def Extends (base store : FlagStore) : Prop :=
  ∃ cell, store.cells = base.cells ++ [cell]

theorem cell_append (flags : FlagStore) (i : Nat) :
    cell ⟨flags.cells ++ [false]⟩ i = flags.cell i := by
  unfold cell
  rcases Nat.lt_trichotomy i flags.cells.length with hlt | rfl | hlt
  · rw [List.getD_append _ _ _ _ hlt]
  · simp
  · have hend : (flags.cells ++ [false]).length ≤ i := by simpa using Nat.succ_le_of_lt hlt
    rw [List.getD_eq_default _ _ hend, List.getD_eq_default _ _ (Nat.le_of_lt hlt)]

/-- A flag that has just been linked shows the own cell of the flag that it comes from. -/
theorem isRaised_linked_of_cell (hown : store.cell flag.own = false) :
    (store.linked flag).2.isRaised (store.linked flag).1 = false := by
  show (cell ⟨store.cells ++ [false]⟩ store.cells.length ||
    cell ⟨store.cells ++ [false]⟩ flag.own) = false
  rw [cell_append, cell_append, hown]
  simp [cell]

theorem isRaised_linked (h : store.isRaised flag = false) :
    (store.linked flag).2.isRaised (store.linked flag).1 = false := by
  rw [isRaised, Bool.or_eq_false_iff] at h
  exact isRaised_linked_of_cell h.1

/-- A flag does not show what is done to other cells. -/
theorem isRaised_set {i : Nat} (hown : i ≠ flag.own) (horigin : flag.origin? ≠ some i)
    (cells : List Bool) (raised : Bool) :
    isRaised ⟨cells.set i raised⟩ flag = isRaised ⟨cells⟩ flag := by
  have hcell : ∀ j ≠ i, cell ⟨cells.set i raised⟩ j = cell ⟨cells⟩ j := by
    intro j hj
    simp only [cell, List.getD_eq_getElem?_getD, List.getElem?_set_ne hj.symm]
  unfold isRaised
  rw [hcell flag.own hown.symm]
  cases hflag : flag.origin? with
  | none => rfl
  | some j =>
      rw [hflag] at horigin
      rw [Option.any_some, Option.any_some, hcell j fun heq => horigin (congrArg some heq)]

/-- What is done to any cell is done to the cell that both stores have, or to the new one. -/
theorem Extends.set (h : base.Extends store) (i : Nat) (raised : Bool) :
    Extends ⟨base.cells.set i raised⟩ ⟨store.cells.set i raised⟩ := by
  obtain ⟨cell, hcells⟩ := h
  show ∃ cell, store.cells.set i raised = base.cells.set i raised ++ [cell]
  rw [hcells, List.set_append]
  -- past the cells of the base there is the new one, and then nothing to set
  by_cases hi : i < base.cells.length
  · exact ⟨cell, if_pos hi⟩
  · rw [if_neg hi, List.set_eq_of_length_le (Nat.le_of_not_lt hi)]
    cases i - base.cells.length with
    | zero => exact ⟨raised, rfl⟩
    | succ j => exact ⟨cell, rfl⟩

end FlagStore

namespace Search

variable {base flags : FlagStore} {shared : CancelFlag} {s : Search}

/-! ## Steps of workers -/

theorem extends_step {α : Type} (h : base.Extends flags) (hshared : shared.own = base.cells.length)
    (work : Work α) : base.Extends (work.step shared flags).1 := by
  cases work with
  | raise next =>
      have hset := h.set shared.own true
      rwa [List.set_eq_of_length_le (by omega)] at hset
  | done result => exact h
  | crashed => exact h
  | poll next => exact h
  | note event next => exact h

theorem extends_stepAll (h : base.Extends flags) (hshared : shared.own = base.cells.length)
    (workers : List (Work (Except Error Mined))) :
    base.Extends (stepAll shared flags workers).1 := by
  induction workers generalizing flags with
  | nil => exact h
  | cons work rest ih => exact ih (extends_step h hshared work)

theorem extends_finish (h : base.Extends s.flags) (hshared : s.shared.own = base.cells.length) :
    base.Extends s.finish.flags := by
  fun_induction Search.finish s with
  | case1 s hrunning ih => exact ih (extends_stepAll h hshared s.workers) hshared
  | case2 s hover => exact h

/-! ## Turns -/

theorem shared_turn (s : Search) (t : Turn) : (s.turn t).shared = s.shared := by
  cases t with
  | worker i =>
      rw [turn, step]
      cases s.workers[i]? with
      | none => rfl
      | some work => rfl
  | raise flag => rfl
  | reset flag => rfl

/-- What a turn does to the flags, unless it is a worker's. -/
def Turn.alter (flags : FlagStore) : Turn → FlagStore
  | .worker _ => flags
  | .raise flag => flags.raise flag
  | .reset flag => flags.reset flag

/-- A turn of somebody else touches neither the cell of a flag nor that of its origin. -/
def Turn.Spares (flag : CancelFlag) : Turn → Prop
  | .worker _ => True
  | .raise other => other.own ≠ flag.own ∧ flag.origin? ≠ some other.own
  | .reset other => other.own ≠ flag.own ∧ flag.origin? ≠ some other.own

theorem Turn.length_alter (flags : FlagStore) (t : Turn) :
    (alter flags t).cells.length = flags.cells.length := by
  cases t with
  | worker i => rfl
  | raise flag => exact List.length_set
  | reset flag => exact List.length_set

theorem extends_turn (h : base.Extends s.flags) (hshared : s.shared.own = base.cells.length)
    (t : Turn) : (t.alter base).Extends (s.turn t).flags := by
  cases t with
  | worker i =>
      rw [turn, step]
      cases s.workers[i]? with
      | none => exact h
      | some work => exact extends_step h hshared work
  | raise flag => exact h.set flag.own true
  | reset flag => exact h.set flag.own false

/-- After a search the flags are as others have left them, and there is one more. -/
theorem extends_run (h : base.Extends s.flags) (hshared : s.shared.own = base.cells.length)
    (turns : List Turn) : (turns.foldl Turn.alter base).Extends (s.run turns).flags := by
  unfold run
  induction turns generalizing s base with
  | nil => exact extends_finish h hshared
  | cons t turns ih =>
      apply ih (extends_turn h hshared t)
      rw [shared_turn, Turn.length_alter]
      exact hshared

theorem extends_start (job : MiningJob) (workers : Nat) (range : NonceRange) (caller : CancelFlag)
    (flags : FlagStore) : flags.Extends (start job workers range caller flags).flags :=
  ⟨false, rfl⟩

end Search

end BlockProduction

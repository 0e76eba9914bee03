import BlockProduction.Proofs.Mining.Course

/-!
# Records of searches

All that the workers of a search do is put on record as it happens, each action
with the number of the worker that takes it.  The share of one worker in the
record is a course of its work, whatever the others do and whoever raises and
lowers flags meanwhile.
-/

namespace BlockProduction

namespace Work

variable {α : Type} {w : Work α} {flag : CancelFlag} {store : FlagStore}

/-- What the next step does visibly. -/
def act? (flag : CancelFlag) (store : FlagStore) : Work α → Option Action
  | .poll _ => some (.looked (store.isRaised flag))
  | .raise _ => some .raised
  | .note event _ => some (.noted event)
  | _ => none

/-- A step goes before each course of what is left after it. -/
theorem Course.of_step {rest : List Action} {result? : Option α}
    (h : (w.step flag store).2.Course rest result?) :
    w.Course ((w.act? flag store).toList ++ rest) result? := by
  cases w with
  | done result => exact h
  | crashed => exact h
  | poll next => exact .poll _ h
  | raise next => exact .raise h
  | note event next => exact .note h

end Work

/-- An action, and the number of the worker that takes it. -/
structure Deed where
  worker : Nat
  action : Action
  deriving DecidableEq

/-- What certain workers do, in order. -/
def share (log : List Deed) (who : Nat → Bool) : List Action :=
  (log.filter fun deed => who deed.worker).map (·.action)

@[simp] theorem share_append (first second : List Deed) (who : Nat → Bool) :
    share (first ++ second) who = share first who ++ share second who := by
  rw [share, List.filter_append, List.map_append]
  rfl

namespace Search

variable {s t u : Search}

/-! ## Searches as turns -/

/-- A step of each worker in order. -/
def round (s : Search) : List Turn :=
  (List.range s.workers.length).map .worker

/-- The turns that carry a search to its end. -/
def closing (s : Search) : List Turn :=
  if _h : s.isRunning then s.round ++ closing s.sweep else []
termination_by s.height
decreasing_by exact height_sweep_lt s (by assumption)

theorem foldl_turn_workers (shared : CancelFlag) (flags : FlagStore)
    (before rest : List (Work (Except Error Mined))) :
    ((List.range' before.length rest.length).map Turn.worker).foldl turn
        ⟨before ++ rest, flags, shared⟩ =
      ⟨before ++ (stepAll shared flags rest).2, (stepAll shared flags rest).1, shared⟩ := by
  -- the workers before have stepped in this round, and the flags are as they left them
  induction rest generalizing before flags with
  | nil => rfl
  | cons work rest ih =>
      have hlater := ih (work.step shared flags).1 (before ++ [(work.step shared flags).2])
      have hturn : turn ⟨before ++ work :: rest, flags, shared⟩ (.worker before.length) =
          ⟨before ++ [(work.step shared flags).2] ++ rest, (work.step shared flags).1,
            shared⟩ := by
        simp [turn, step]
      rw [List.length_cons, List.range'_succ, List.map_cons, List.foldl_cons, hturn]
      rw [List.length_append, List.length_singleton] at hlater
      rw [hlater, List.append_assoc]
      rfl

theorem sweep_eq_foldl (s : Search) : s.sweep = s.round.foldl turn s := by
  have hall := foldl_turn_workers s.shared s.flags [] s.workers
  rw [List.length_nil, ← List.range_eq_range'] at hall
  exact hall.symm

theorem finish_eq_foldl (s : Search) : s.finish = s.closing.foldl turn s := by
  fun_induction Search.finish s with
  | case1 s hrunning ih =>
      rw [closing, dif_pos hrunning, List.foldl_append, ← sweep_eq_foldl]
      exact ih
  | case2 s hover =>
      rw [closing, dif_neg hover]
      rfl

theorem run_eq_foldl (s : Search) (turns : List Turn) :
    s.run turns = (turns ++ (turns.foldl turn s).closing).foldl turn s := by
  rw [run, finish_eq_foldl, List.foldl_append]

/-! ## Records -/

/-- What a turn does visibly. -/
def deed? (s : Search) : Turn → Option Deed
  | .worker i => s.workers[i]?.bind fun work => (work.act? s.shared s.flags).map (Deed.mk i)
  | .raise _ => none
  | .reset _ => none

/-- What is done in some turns. -/
def log (s : Search) : List Turn → List Deed
  | [] => []
  | t :: turns => (s.deed? t).toList ++ (s.turn t).log turns

/-- What is done in some turns and then to the end. -/
def record (s : Search) (turns : List Turn) : List Deed :=
  s.log (turns ++ (turns.foldl turn s).closing)

/-- What each worker has left to do at first is its share in a log, and then what it has left in
the end. -/
structure Leads (s : Search) (log : List Deed) (t : Search) : Prop where
  length_eq : t.workers.length = s.workers.length
  worker_lt : ∀ deed ∈ log, deed.worker < s.workers.length
  course : ∀ {i : Nat} {work later : Work (Except Error Mined)}, s.workers[i]? = some work →
    t.workers[i]? = some later → ∀ {rest : List Action} {result? : Option (Except Error Mined)},
    later.Course rest result? → work.Course (share log (· == i) ++ rest) result?

theorem Leads.refl (s : Search) : s.Leads [] s where
  length_eq := rfl
  worker_lt := by nofun
  course := by
    intro i work later hwork hlater rest result? h
    rw [hwork, Option.some.injEq] at hlater
    subst hlater
    exact h

theorem Leads.trans {first second : List Deed} (hfirst : s.Leads first t)
    (hsecond : t.Leads second u) : s.Leads (first ++ second) u where
  length_eq := hsecond.length_eq.trans hfirst.length_eq
  worker_lt := by
    intro deed hdeed
    rcases List.mem_append.mp hdeed with h | h
    · exact hfirst.worker_lt deed h
    · exact hfirst.length_eq ▸ hsecond.worker_lt deed h
  course := by
    intro i work later hwork hlater rest result? h
    have hlt : i < t.workers.length := by
      rw [hfirst.length_eq]
      exact (List.getElem?_eq_some_iff.mp hwork).1
    have hmid : t.workers[i]? = some t.workers[i] := List.getElem?_eq_getElem hlt
    rw [share_append, List.append_assoc]
    exact hfirst.course hwork hmid (hsecond.course hmid hlater h)

theorem share_toList (action? : Option Action) (i : Nat) (who : Nat → Bool) :
    share (action?.map (Deed.mk i)).toList who = if who i then action?.toList else [] := by
  cases action? with
  | none => simp [share]
  | some action => cases hwho : who i <;> simp [share, hwho]

/-- One worker takes its next action, and the others stay as they are. -/
theorem leads_of_getElem? {i : Nat} {work : Work (Except Error Mined)}
    (hwork : s.workers[i]? = some work) :
    s.Leads ((work.act? s.shared s.flags).map (Deed.mk i)).toList
      { s with
        workers := s.workers.set i (work.step s.shared s.flags).2
        flags := (work.step s.shared s.flags).1 } where
  length_eq := List.length_set
  worker_lt := by
    intro deed hdeed
    obtain ⟨action, -, rfl⟩ := Option.map_eq_some_iff.mp (Option.mem_toList.mp hdeed)
    exact (List.getElem?_eq_some_iff.mp hwork).1
  course := by
    intro j old later hold hlater rest result? h
    rw [share_toList]
    by_cases heq : i = j
    · subst heq
      rw [List.getElem?_set_self (List.getElem?_eq_some_iff.mp hwork).1] at hlater
      obtain rfl := Option.some.inj hlater
      obtain rfl := Option.some.inj (hwork.symm.trans hold)
      rw [if_pos (beq_self_eq_true i)]
      exact .of_step h
    · rw [List.getElem?_set_ne heq] at hlater
      obtain rfl := Option.some.inj (hold.symm.trans hlater)
      rw [if_neg (by simpa using heq)]
      exact h

theorem leads_step (s : Search) (i : Nat) : s.Leads (s.deed? (.worker i)).toList (s.step i) := by
  rw [deed?, step]
  cases hwork : s.workers[i]? with
  | none => exact .refl s -- nobody has that number
  | some work => exact leads_of_getElem? hwork

theorem leads_turn (s : Search) (t : Turn) : s.Leads (s.deed? t).toList (s.turn t) := by
  cases t with
  | worker i => exact s.leads_step i
  | raise flag =>
      -- the flags have changed, and no worker has
      have hsame := Leads.refl s
      exact ⟨hsame.length_eq, hsame.worker_lt, hsame.course⟩
  | reset flag =>
      have hsame := Leads.refl s
      exact ⟨hsame.length_eq, hsame.worker_lt, hsame.course⟩

theorem leads_log (s : Search) (turns : List Turn) :
    s.Leads (s.log turns) (turns.foldl turn s) := by
  induction turns generalizing s with
  | nil => exact .refl s
  | cons t turns ih => exact (s.leads_turn t).trans (ih (s.turn t))

theorem leads_record (s : Search) (turns : List Turn) :
    s.Leads (s.record turns) (s.run turns) := by
  rw [run_eq_foldl]
  exact s.leads_log _

end Search

end BlockProduction

import BlockProduction.Mining.Search

/-!
# What work can end with

Work is followed through all answers that its looks at the flag may get, and so
through every history of the flag and every course of events around it.  What
holds of all its ends holds of the result, however work is carried out: alone,
or by many workers in any order.
-/

namespace BlockProduction

namespace Work

variable {α β : Type}

/-- The results of work for all that its looks at the flag may show. -/
inductive Yields : Work α → α → Prop
  | done (result : α) : Yields (.done result) result
  | poll {next : Bool → Work α} {result : α} (raised : Bool) (h : Yields (next raised) result) :
      Yields (.poll next) result
  | raise {next : Work α} {result : α} (h : Yields next result) : Yields (.raise next) result
  | note {event : MiningEvent} {next : Work α} {result : α} (h : Yields next result) :
      Yields (.note event next) result

theorem yields_bind {w : Work α} {k : α → Work β} {result : β} (h : (w.bind k).Yields result) :
    ∃ first, w.Yields first ∧ (k first).Yields result := by
  induction w with
  | done first => exact ⟨first, .done first, h⟩
  | crashed => nomatch h
  | poll next ih =>
      cases h with
      | poll raised h =>
          obtain ⟨first, hfirst, hresult⟩ := ih raised h
          exact ⟨first, .poll raised hfirst, hresult⟩
  | raise next ih =>
      cases h with
      | raise h =>
          obtain ⟨first, hfirst, hresult⟩ := ih h
          exact ⟨first, .raise hfirst, hresult⟩
  | note event next ih =>
      cases h with
      | note h =>
          obtain ⟨first, hfirst, hresult⟩ := ih h
          exact ⟨first, .note hfirst, hresult⟩

/-- A step only settles what the next look at the flag shows. -/
theorem yields_of_step {flag : CancelFlag} {store : FlagStore} {w : Work α} {result : α}
    (h : (w.step flag store).2.Yields result) : w.Yields result := by
  cases w with
  | done first => exact h
  | crashed => exact h
  | poll next => exact .poll _ h
  | raise next => exact .raise h
  | note event next => exact .note h

theorem yields_of_runAlone {flag : CancelFlag} {w : Work α} {store after : FlagStore} {result : α}
    (h : w.runAlone flag store = (some result, after)) : w.Yields result := by
  induction w generalizing store with
  | done first =>
      cases h
      exact .done _
  | crashed => nomatch h
  | poll next ih => exact .poll _ (ih _ h)
  | raise next ih => exact .raise (ih h)
  | note event next ih => exact .note (ih h)

end Work

namespace Search

variable {s : Search} {P : Mined → Prop}

/-- Whoever finds something yet finds what `P` says. -/
def Finds (P : Mined → Prop) (workers : List (Work (Except Error Mined))) : Prop :=
  ∀ work ∈ workers, ∀ mined, work.Yields (.ok mined) → P mined

theorem Finds.step (h : Finds P s.workers) (i : Nat) : Finds P (s.step i).workers := by
  unfold Search.step
  cases hwork : s.workers[i]? with
  | none => exact h
  | some work =>
      intro other hother mined hmined
      rcases List.mem_or_eq_of_mem_set hother with hold | rfl
      · exact h other hold mined hmined
      · exact h work (List.mem_of_getElem? hwork) mined (Work.yields_of_step hmined)

theorem Finds.turn (h : Finds P s.workers) (t : Turn) : Finds P (s.turn t).workers := by
  cases t with
  | worker i => exact h.step i
  | raise flag => exact h
  | reset flag => exact h

theorem Finds.stepAll {shared : CancelFlag} {flags : FlagStore}
    {workers : List (Work (Except Error Mined))} (h : Finds P workers) :
    Finds P (stepAll shared flags workers).2 := by
  induction workers generalizing flags with
  | nil => exact h
  | cons first rest ih =>
      intro work hwork mined hmined
      rcases List.mem_cons.mp hwork with rfl | hrest
      · exact h first (by simp) mined (Work.yields_of_step hmined)
      · have hall : Finds P rest := fun work hin => h work (List.mem_cons_of_mem first hin)
        exact ih hall work hrest mined hmined

theorem Finds.finish (h : Finds P s.workers) : Finds P s.finish.workers := by
  fun_induction Search.finish s with
  | case1 s hrunning ih => exact ih h.stepAll
  | case2 s hover => exact h

/-- No course of events makes workers find anything else. -/
theorem Finds.run (h : Finds P s.workers) (turns : List Turn) :
    Finds P (s.run turns).workers := by
  unfold Search.run
  apply Finds.finish
  induction turns generalizing s with
  | nil => exact h
  | cons t turns ih => exact ih (h.turn t)

/-- A search whose workers have nothing left to do after some turns ends with them. -/
theorem run_of_over {turns : List Turn} (h : (turns.foldl Search.turn s).isRunning = false) :
    s.run turns = turns.foldl Search.turn s := by
  rw [run, Search.finish, dif_neg (Bool.eq_false_iff.mp h)]

theorem ok_of_result? {work : Work (Except Error Mined)} {mined : Mined}
    (h : result? work = some (.ok mined)) : work.Yields (.ok mined) := by
  cases work with
  | done result =>
      cases h
      exact .done _
  | crashed => nomatch h
  | poll next => nomatch h
  | raise next => nomatch h
  | note event next => nomatch h

/-- The winner of a search is one of its workers' results, with the counters of all. -/
theorem winner_of_merge {results : List (Except Error Mined)} {mined : Mined}
    (h : merge results = .ok mined) : ∃ winner, .ok winner ∈ results ∧
      mined = { winner with
        noncesTried := mined.noncesTried, solutionsRejected := mined.solutionsRejected } := by
  unfold merge at h
  cases hwinner : results.findSome? solution? with
  | some winner =>
      obtain ⟨result, hresult, hsolution⟩ := List.exists_of_findSome?_eq_some hwinner
      simp only [hwinner, Except.ok.injEq] at h
      refine ⟨winner, ?_, ?_⟩
      · cases result with
        | ok found =>
            cases hsolution
            exact hresult
        | error e => nomatch hsolution
      · rw [← h]
  | none =>
      simp only [hwinner] at h
      cases hfailure : results.findSome? failure? with
      | some e => simp [hfailure] at h
      | none =>
          simp only [hfailure] at h
          by_cases hall : results.all isExhausted = true
          · simp [hall] at h
          · simp [hall] at h

/-- What all workers can find, a search finds, up to the counters. -/
theorem Finds.outcome (h : Finds P s.workers) {mined : Mined} (hmined : s.outcome = .ok mined) :
    ∃ winner, P winner ∧ mined = { winner with
      noncesTried := mined.noncesTried, solutionsRejected := mined.solutionsRejected } := by
  obtain ⟨winner, hwinner, heq⟩ := winner_of_merge hmined
  obtain ⟨work, hwork, hresult⟩ := List.mem_filterMap.mp hwinner
  exact ⟨winner, h work hwork winner (ok_of_result? hresult), heq⟩

end Search

end BlockProduction

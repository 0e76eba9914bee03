import BlockProduction.Proofs.Mining.Agreement
import BlockProduction.Proofs.Mining.Record
import Mathlib.Algebra.BigOperators.Group.Finset.Basic

/-!
# Tallies of searches

A worker that finds a header reports all nonces that it was handed and all
solutions of its own that were rejected.  One that was cancelled or has tried all
its nonces reports the nonces only, and one that failed or crashed reports
neither.  So the totals of a search are those of its record as long as nobody
fails, and nothing is rejected but to those who win.
-/

namespace BlockProduction

open Search (noncesOf rejectionsOf failure? solution? result? total)

variable {s : Session} {job : MiningJob} {actions : List Action}

/-! ## Sessions -/

/-- A result tells the counters of the session that it ends: the nonces unless the run has failed,
and the rejected solutions if it has found a header. -/
structure Session.Reports (s : Session) (result : Except Error Mined) : Prop where
  nonces_eq : failure? result = none → noncesOf result = s.noncesTried
  rejections_eq : ∀ mined, result = .ok mined → mined.solutionsRejected = s.solutionsRejected

theorem Session.Stops.reports {run : SessionRun} (h : s.Stops run) : run.2.Reports run.1 := by
  cases h with
  | found header nonce solution hash =>
      refine ⟨fun _ => rfl, ?_⟩
      rintro mined ⟨⟩
      rfl
  | cancelled => exact ⟨fun _ => rfl, by nofun⟩
  | failed solver e =>
      obtain ⟨words, hfailed⟩ := s.failed_eq solver e
      rw [hfailed]
      exact ⟨by nofun, by nofun⟩

namespace MiningJob

variable {remaining : Nat} {nonce : Word256} {visits : List Visit} {range : NonceRange}
  {run? : Option SessionRun}

theorem Walk.reports (h : job.Walk remaining nonce s visits actions run?) {run : SessionRun}
    (hrun : run? = some run) : run.2.Reports run.1 := by
  induction h with
  | halts h =>
      cases h with
      | stopped =>
          cases hrun
          exact Session.Stops.cancelled.reports
      | crashed hnonce hmade hcrash => nomatch hrun
      | ended hnonce hmade hreturn hfruit hstops =>
          cases hrun
          exact hstops.reports
  | exhausted hmade hfruit =>
      cases hrun
      exact ⟨fun _ => rfl, by nofun⟩
  | next hmade hfruit hrest ih => exact ih hrun

/-- Before anything is visited, a walk can only be cancelled. -/
theorem Walk.eq_cancelled (h : job.Walk remaining nonce s [] actions run?) :
    run? = some s.cancelled := by
  cases h with
  | halts h =>
      cases h with
      | stopped => rfl

end MiningJob

/-! ## Workers -/

namespace Work

variable {α β : Type}

/-- What work does that goes on with other work, part by part. -/
theorem course_bind {w : Work α} {k : α → Work β} {result? : Option β}
    (h : (w.bind k).Course actions result?) :
    w.Course actions none ∧ result? = none ∨
    ∃ first before after, w.Course before (some first) ∧ (k first).Course after result? ∧
      actions = before ++ after := by
  induction w generalizing actions with
  | done first => exact .inr ⟨first, [], actions, .done first, h, rfl⟩
  | crashed =>
      cases h
      exact .inl ⟨.crashed, rfl⟩
  | poll next ih =>
      cases h with
      | poll raised h =>
          rcases ih raised h with ⟨hcourse, hnone⟩ | ⟨first, before, after, hfirst, hafter, rfl⟩
          · exact .inl ⟨.poll raised hcourse, hnone⟩
          · exact .inr ⟨first, _, after, .poll raised hfirst, hafter, rfl⟩
  | raise next ih =>
      cases h with
      | raise h =>
          rcases ih h with ⟨hcourse, hnone⟩ | ⟨first, before, after, hfirst, hafter, rfl⟩
          · exact .inl ⟨.raise hcourse, hnone⟩
          · exact .inr ⟨first, _, after, .raise hfirst, hafter, rfl⟩
  | note event next ih =>
      cases h with
      | note h =>
          rcases ih h with ⟨hcourse, hnone⟩ | ⟨first, before, after, hfirst, hafter, rfl⟩
          · exact .inl ⟨.note hcourse, hnone⟩
          · exact .inr ⟨first, _, after, .note hfirst, hafter, rfl⟩

end Work

namespace Search

/-- The result that stands for a worker in the merge. -/
def told (result? : Option (Except Error Mined)) : Except Error Mined :=
  result?.getD (.error (.internal .workerCrashed))

/-- What a worker reports of the actions that it takes. -/
structure Reports (actions : List Action) (result : Except Error Mined) : Prop where
  nonces_eq : failure? result = none → noncesOf result = (handed actions).length
  lost_eq : failure? result ≠ none → noncesOf result = 0 ∧ handed actions ≠ []
  rejections_eq : ∀ mined, result = .ok mined → mined.solutionsRejected = rejections actions

theorem noncesOf_of_failure? {result : Except Error Mined} (h : failure? result ≠ none) :
    noncesOf result = 0 := by
  cases result with
  | ok mined => exact absurd rfl h
  | error e =>
      cases e with
      | searchCancelled n => exact absurd rfl h
      | noncesExhausted n => exact absurd rfl h
      | _ => rfl

end Search

namespace MiningJob

variable {range : NonceRange} {run? : Option SessionRun} {result? : Option (Except Error Mined)}

/-- A run over a range without nonces does nothing, and any other one is a walk. -/
theorem run_cases (h : (job.run s range).Course actions run?) :
    run? = some s.exhausted ∨
      ∃ visits, job.Walk range.width range.start s visits actions run? := by
  unfold MiningJob.run at h
  split at h
  · cases h
    exact .inl rfl
  · exact .inr (walk_of_course h)

theorem reports_of_course_run {run : SessionRun}
    (h : (job.run s range).Course actions (some run)) : run.2.Reports run.1 := by
  rcases run_cases h with hexhausted | ⟨visits, hwalk⟩
  · obtain rfl := Option.some.inj hexhausted
    exact ⟨fun _ => rfl, by nofun⟩
  · exact hwalk.reports rfl

/-- A run that fails or crashes does so in an attempt. -/
theorem handed_ne_nil (h : (job.run s range).Course actions run?)
    (hlost : ∀ run, run? = some run → failure? run.1 ≠ none) : handed actions ≠ [] := by
  rcases run_cases h with hexhausted | ⟨visits, hwalk⟩
  · exact absurd rfl (hlost _ hexhausted)
  · rw [hwalk.handed_eq]
    intro hnone
    rw [List.map_eq_nil_iff.mp hnone] at hwalk
    exact absurd rfl (hlost _ hwalk.eq_cancelled)

/-- A worker runs a new session, and after that it adds at most that it raises the flag. -/
theorem worker_cases (h : (job.worker range).Course actions result?) :
    (job.run default range).Course actions none ∧ result? = none ∨
    ∃ result after before rest, (job.run default range).Course before (some (result, after)) ∧
      result? = some result ∧ actions = before ++ rest ∧ handed rest = [] ∧
      rejections rest = 0 := by
  rcases Work.course_bind h with hcrash | ⟨⟨result, after⟩, before, rest, hrun, hrest, rfl⟩
  · exact .inl hcrash
  · refine .inr ⟨result, after, before, rest, hrun, ?_⟩
    cases result with
    | ok mined =>
        cases hrest with
        | raise hdone =>
            cases hdone
            exact ⟨rfl, rfl, rfl, rfl⟩
    | error e =>
        cases hrest
        exact ⟨rfl, rfl, rfl, rfl⟩

theorem reports_of_course_worker (h : (job.worker range).Course actions result?) :
    Search.Reports actions (Search.told result?) := by
  rcases worker_cases h with ⟨hcourse, rfl⟩ |
    ⟨result, after, before, rest, hrun, rfl, rfl, hnonces, hrejections⟩
  · have hhanded := handed_ne_nil hcourse (by nofun)
    exact ⟨by nofun, fun _ => ⟨rfl, hhanded⟩, by nofun⟩
  · obtain ⟨visits, hpassage⟩ := passage_of_course hrun
    obtain ⟨htried, hrejected⟩ := hpassage.counted rfl
    have hreports := reports_of_course_run hrun
    have hfresh : (default : Session) = ⟨.idle, 0, 0⟩ := rfl
    rw [hfresh, Nat.zero_add] at htried hrejected
    have hhanded : handed (before ++ rest) = handed before := by
      rw [handed_append, hnonces, List.append_nil]
    refine ⟨fun hkept => ?_, fun hlost => ⟨Search.noncesOf_of_failure? hlost, ?_⟩, ?_⟩
    · rw [hhanded, ← htried]
      exact hreports.nonces_eq hkept
    · rw [hhanded]
      refine handed_ne_nil hrun ?_
      rintro run ⟨⟩
      exact hlost
    · intro mined hmined
      rw [rejections_append, hrejections, Nat.add_zero, ← hrejected]
      exact hreports.rejections_eq mined hmined

end MiningJob

/-! ## Shares -/

section

variable {log : List Deed} {q : Action → Bool}

theorem countP_share (log : List Deed) (who : Nat → Bool) (q : Action → Bool) :
    (share log who).countP q = log.countP fun deed => q deed.action && who deed.worker := by
  rw [share, List.countP_map, List.countP_filter]
  rfl

theorem length_handed (actions : List Action) :
    (handed actions).length = actions.countP fun action => action.handed?.isSome :=
  List.length_filterMap_eq_countP

/-- What certain workers do and what the others do is all that is done. -/
theorem countP_share_add (log : List Deed) (who : Nat → Bool) (q : Action → Bool) :
    (share log who).countP q + (share log fun i => !who i).countP q =
      (log.map (·.action)).countP q := by
  rw [share, share, List.countP_map, List.countP_map, List.countP_map]
  exact (List.countP_eq_countP_filter_add log _ fun deed => who deed.worker).symm

theorem countP_share_eq_zero_iff (log : List Deed) (who : Nat → Bool) (q : Action → Bool) :
    (share log who).countP q = 0 ↔
      ∀ i, who i = true → (share log (· == i)).countP q = 0 := by
  simp only [countP_share, List.countP_eq_zero, Bool.and_eq_true, beq_iff_eq, not_and]
  constructor
  · intro h i hi deed hdeed hq heq
    exact h deed hdeed hq (heq ▸ hi)
  · intro h deed hdeed hq hwho
    exact h deed.worker hwho deed hdeed hq rfl

/-- What certain workers do is summed up over them. -/
theorem sum_countP_share (who : Nat → Bool) {n : Nat} (hbound : ∀ deed ∈ log, deed.worker < n) :
    ∑ i ∈ Finset.range n, (if who i then (share log (· == i)).countP q else 0) =
      (share log who).countP q := by
  induction log with
  | nil => simp [share]
  | cons deed log ih =>
      have hlater := ih fun other hother => hbound other (List.mem_cons_of_mem deed hother)
      have hdeed : deed.worker ∈ Finset.range n :=
        Finset.mem_range.mpr (hbound deed List.mem_cons_self)
      -- the deed counts for its own worker and for no other
      have hone : ∀ i, (if who i then (share (deed :: log) (· == i)).countP q else 0) =
          (if who i then (share log (· == i)).countP q else 0) +
            if deed.worker = i then if q deed.action && who i then 1 else 0 else 0 := by
        intro i
        simp only [countP_share, List.countP_cons]
        by_cases heq : deed.worker = i
        · cases who i <;> simp [heq]
        · simp [heq]
      rw [Finset.sum_congr rfl fun i _ => hone i, Finset.sum_add_distrib, hlater,
        Finset.sum_ite_eq, if_pos hdeed, countP_share, countP_share, List.countP_cons]

end

/-! ## Searches -/

namespace Search

variable {s : Search}

/-- The workers with these results that have failed or crashed. -/
def lost (results : List (Except Error Mined)) (i : Nat) : Bool :=
  (results[i]?.bind failure?).isSome

/-- The workers with these results that have found a header. -/
def won (results : List (Except Error Mined)) (i : Nat) : Bool :=
  (results[i]?.bind solution?).isSome

theorem isOver_of_mem (hover : s.isRunning = false) :
    ∀ work ∈ s.workers, work.isOver = true := by
  simpa [isRunning] using hover

theorem lost_eq {results : List (Except Error Mined)} {i : Nat} {result : Except Error Mined}
    (h : results[i]? = some result) : lost results i = (failure? result).isSome := by
  rw [lost, h, Option.bind_some]

theorem won_eq {results : List (Except Error Mined)} {i : Nat} {result : Except Error Mined}
    (h : results[i]? = some result) : won results i = (solution? result).isSome := by
  rw [won, h, Option.bind_some]

theorem results_eq_map (hover : s.isRunning = false) :
    s.results.map some = s.workers.map result? := by
  have hall := isOver_of_mem hover
  unfold results
  generalize s.workers = workers at hall
  induction workers with
  | nil => rfl
  | cons work rest ih =>
      have hlater := ih fun other hother => hall other (List.mem_cons_of_mem work hother)
      cases hresult : result? work with
      | some result =>
          rw [List.filterMap_cons_some hresult, List.map_cons, List.map_cons, hresult, hlater]
      | none =>
          have hwork := hall work List.mem_cons_self
          cases work <;> contradiction

theorem length_results (hover : s.isRunning = false) : s.results.length = s.workers.length := by
  have hlength := congrArg List.length (results_eq_map hover)
  rwa [List.length_map, List.length_map] at hlength

/-- Work that is over does nothing more, and its result stands for it. -/
theorem course_of_isOver {work : Work (Except Error Mined)} (h : work.isOver = true) :
    ∃ result?, work.Course [] result? ∧ Search.result? work = some (told result?) := by
  cases work with
  | done result => exact ⟨some result, .done result, rfl⟩
  | crashed => exact ⟨none, .crashed, rfl⟩
  | poll next => nomatch h
  | raise next => nomatch h
  | note event next => nomatch h

/-- The share of a worker in the record is a course of its work, and its result is that of the
course. -/
theorem course_record (turns : List Turn) {i : Nat} {work : Work (Except Error Mined)}
    (h : s.workers[i]? = some work) :
    ∃ result?, work.Course (share (s.record turns) (· == i)) result? ∧
      (s.run turns).results[i]? = some (told result?) := by
  have hleads := s.leads_record turns
  have hover : (s.run turns).isRunning = false := isRunning_finish _
  have hlt : i < (s.run turns).workers.length := by
    rw [hleads.length_eq]
    exact (List.getElem?_eq_some_iff.mp h).1
  have hlast : (s.run turns).workers[i]? = some (s.run turns).workers[i] :=
    List.getElem?_eq_getElem hlt
  obtain ⟨result?, hcourse, hresult⟩ :=
    course_of_isOver (isOver_of_mem hover _ (List.getElem_mem hlt))
  refine ⟨result?, ?_, ?_⟩
  · have hwhole := hleads.course h hlast hcourse
    rwa [List.append_nil] at hwhole
  · have hsame := congrArg (·[i]?) (results_eq_map hover)
    rw [List.getElem?_map, List.getElem?_map, hlast, Option.map_some, hresult] at hsame
    obtain ⟨result, hget, heq⟩ := Option.map_eq_some_iff.mp hsame
    rw [hget, heq]

/-! ### Totals -/

section

variable {log : List Deed} {results : List (Except Error Mined)} {mined : Mined}
  (hbound : ∀ deed ∈ log, deed.worker < results.length)
  (hreports : ∀ {i : Nat} {result : Except Error Mined}, results[i]? = some result →
    Reports (share log (· == i)) result)

theorem total_map_eq_sum (results : List (Except Error Mined)) (f : Except Error Mined → Nat)
    (g : Nat → Nat) (h : ∀ {i : Nat} {result : Except Error Mined}, results[i]? = some result →
      f result = g i) : total (results.map f) = ∑ i ∈ Finset.range results.length, g i := by
  have hmap : results.map f = (List.range results.length).map g := by
    refine List.ext_getElem (by simp) fun i hi _ => ?_
    rw [List.length_map] at hi
    rw [List.getElem_map, List.getElem_map, List.getElem_range]
    exact h (List.getElem?_eq_getElem hi)
  rw [hmap]
  rfl

section

include hbound hreports

theorem total_nonces : total (results.map noncesOf) =
    (handed (share log fun i => !lost results i)).length := by
  rw [length_handed, ← sum_countP_share _ hbound]
  refine total_map_eq_sum results _ _ fun {i result} hresult => ?_
  have hreport := hreports hresult
  rw [lost_eq hresult, ← length_handed]
  cases hfailure : failure? result with
  | none => exact hreport.nonces_eq hfailure
  | some e => exact (hreport.lost_eq (by rw [hfailure]; nofun)).1

theorem total_rejections : total (results.map rejectionsOf) =
    rejections (share log (won results)) := by
  rw [rejections, ← sum_countP_share _ hbound]
  refine total_map_eq_sum results _ _ fun {i result} hresult => ?_
  rw [won_eq hresult]
  cases result with
  | ok mined => exact (hreports hresult).rejections_eq mined rfl
  | error e => rfl

end

/-- What the result of a search tells about the work that is on record. -/
structure Tallied (log : List Deed) (results : List (Except Error Mined)) (mined : Mined) :
    Prop where
  /-- The nonces that went to workers which failed or crashed are left out. -/
  nonces_eq : mined.noncesTried + (handed (share log (lost results))).length =
    (handed (log.map (·.action))).length
  /-- The rejected solutions of all workers but those that have found a header are left out. -/
  rejections_eq : mined.solutionsRejected + rejections (share log fun i => !won results i) =
    rejections (log.map (·.action))
  nonces_iff : mined.noncesTried = (handed (log.map (·.action))).length ↔
    ∀ result ∈ results, failure? result = none
  rejections_iff : mined.solutionsRejected = rejections (log.map (·.action)) ↔
    ∀ i, won results i = false → rejections (share log (· == i)) = 0

theorem merge_counters (h : merge results = .ok mined) :
    mined.noncesTried = total (results.map noncesOf) ∧
      mined.solutionsRejected = total (results.map rejectionsOf) := by
  obtain ⟨winner, hmem, -⟩ := winner_of_merge h
  unfold merge at h
  cases hwinner : results.findSome? solution? with
  | some winner =>
      rw [hwinner] at h
      cases h
      exact ⟨rfl, rfl⟩
  | none => nomatch List.findSome?_eq_none_iff.mp hwinner _ hmem

include hreports in
/-- Whoever has failed or crashed was handed a nonce before. -/
theorem length_handed_lost_iff : (handed (share log (lost results))).length = 0 ↔
    ∀ result ∈ results, failure? result = none := by
  rw [length_handed, countP_share_eq_zero_iff]
  simp only [← length_handed, List.length_eq_zero_iff]
  constructor
  · intro hnone result hresult
    obtain ⟨i, hi⟩ := List.getElem?_of_mem hresult
    by_contra hfailure
    refine ((hreports hi).lost_eq hfailure).2 (hnone i ?_)
    rw [lost_eq hi]
    exact Option.isSome_iff_ne_none.mpr hfailure
  · intro hkept i hi
    obtain ⟨e, he⟩ := Option.isSome_iff_exists.mp hi
    obtain ⟨result, hget, hfailure⟩ := Option.bind_eq_some_iff.mp he
    rw [hkept result (List.mem_of_getElem? hget)] at hfailure
    nomatch hfailure

include hbound hreports in
theorem tallied (h : merge results = .ok mined) : Tallied log results mined := by
  obtain ⟨hnonces, hrejections⟩ := merge_counters h
  rw [total_nonces hbound hreports] at hnonces
  rw [total_rejections hbound hreports] at hrejections
  have hallNonces := countP_share_add log (lost results) fun action => action.handed?.isSome
  have hallRejections := countP_share_add log (won results) (Action.answers false)
  simp only [← length_handed] at hallNonces
  have hlost := length_handed_lost_iff hreports
  have hrefused := countP_share_eq_zero_iff log (fun i => !won results i) (Action.answers false)
  simp only [Bool.not_eq_true'] at hrefused
  refine ⟨?_, ?_, ?_, ?_⟩
  · omega
  · rw [hrejections]
    exact hallRejections
  · rw [← hlost]
    omega
  · rw [hrejections]
    unfold rejections
    rw [← hrefused]
    omega

end

end Search

namespace MiningJob

section

variable (job : MiningJob) (workers : Nat) (range : NonceRange) (caller : CancelFlag)
  (turns : List Search.Turn) (flags : FlagStore)

/-- What the workers of a search do, in order. -/
def record (job : MiningJob) (workers : Nat) (range : NonceRange) (caller : CancelFlag)
    (turns : List Search.Turn) (flags : FlagStore) : List Deed :=
  (Search.start job workers range caller flags).record turns

/-- What the workers of a search end with. -/
def results (job : MiningJob) (workers : Nat) (range : NonceRange) (caller : CancelFlag)
    (turns : List Search.Turn) (flags : FlagStore) : List (Except Error Mined) :=
  ((Search.start job workers range caller flags).run turns).results

theorem length_results :
    (job.results workers range caller turns flags).length = (range.split workers).length := by
  have hover : ((Search.start job workers range caller flags).run turns).isRunning = false :=
    Search.isRunning_finish _
  rw [results, Search.length_results hover, (Search.leads_record _ turns).length_eq]
  exact List.length_map _

/-- The share of each worker in the record is a course of its work. -/
theorem course_worker {i : Nat} {part : NonceRange} (h : (range.split workers)[i]? = some part) :
    ∃ result?, (job.worker part).Course
        (share (job.record workers range caller turns flags) (· == i)) result? ∧
      (job.results workers range caller turns flags)[i]? = some (Search.told result?) := by
  have hwork : (Search.start job workers range caller flags).workers[i]? =
      some (job.worker part) := by
    show ((range.split workers).map job.worker)[i]? = _
    rw [List.getElem?_map, h, Option.map_some]
  exact Search.course_record turns hwork

theorem worker_lt : ∀ deed ∈ job.record workers range caller turns flags,
    deed.worker < (range.split workers).length := by
  intro deed hdeed
  have hlt := (Search.leads_record _ turns).worker_lt deed hdeed
  rwa [← List.length_map job.worker]

theorem reports_of_getElem? {i : Nat} {result : Except Error Mined}
    (h : (job.results workers range caller turns flags)[i]? = some result) :
    Search.Reports (share (job.record workers range caller turns flags) (· == i)) result := by
  have hlt := (List.getElem?_eq_some_iff.mp h).1
  rw [length_results] at hlt
  obtain ⟨result?, hcourse, hresult⟩ := job.course_worker workers range caller turns flags
    (List.getElem?_eq_getElem hlt)
  obtain rfl := Option.some.inj (h.symm.trans hresult)
  exact reports_of_course_worker hcourse

end

/-- Whatever the solver does and in whatever order the workers step, the share of each worker in
the record is a course of its work, and a header comes with the nonces of all workers that did not
fail or crash, and with the rejected solutions of all that have found one. -/
theorem mine_tallies (job : MiningJob) (workers : Nat) (range : NonceRange) (caller : CancelFlag)
    (turns : List Search.Turn) (flags : FlagStore) :
    (∀ (i : Nat) (part : NonceRange), (range.split workers)[i]? = some part →
      ∃ result?, (job.worker part).Course
          (share (job.record workers range caller turns flags) (· == i)) result? ∧
        (job.results workers range caller turns flags)[i]? = some (Search.told result?)) ∧
    (∀ deed ∈ job.record workers range caller turns flags,
      deed.worker < (range.split workers).length) ∧
    ∀ (mined : Mined) (after : FlagStore),
      job.mine workers range caller turns flags = (.ok mined, after) →
      Search.Tallied (job.record workers range caller turns flags)
        (job.results workers range caller turns flags) mined := by
  refine ⟨fun i part h => job.course_worker workers range caller turns flags h,
    job.worker_lt workers range caller turns flags, fun mined after h => ?_⟩
  refine Search.tallied ?_ (job.reports_of_getElem? workers range caller turns flags)
    (Prod.mk.inj h).1
  rw [length_results]
  exact job.worker_lt workers range caller turns flags

/-- The worker of the later part polls first, and the first part comes to its end as well. -/
theorem mine_tallies_patientJob :
    (NonceRange.split ⟨6, 8⟩ 2)[1]? = some ⟨7, 8⟩ ∧
    (∃ result?, (patientJob.worker ⟨7, 8⟩).Course
      (share (patientJob.record 2 ⟨6, 8⟩ ⟨0, none⟩ [.worker 1, .worker 0] ⟨[false]⟩) (· == 1))
      result?) ∧
    ∃ mined after,
      patientJob.mine 2 ⟨6, 8⟩ ⟨0, none⟩ [.worker 1, .worker 0] ⟨[false]⟩ = (.ok mined, after) ∧
      Search.Tallied (patientJob.record 2 ⟨6, 8⟩ ⟨0, none⟩ [.worker 1, .worker 0] ⟨[false]⟩)
        (patientJob.results 2 ⟨6, 8⟩ ⟨0, none⟩ [.worker 1, .worker 0] ⟨[false]⟩) mined := by
  have hpart : (NonceRange.split ⟨6, 8⟩ 2)[1]? = some ⟨7, 8⟩ := by decide
  have hok : (patientJob.mine 2 ⟨6, 8⟩ ⟨0, none⟩ [.worker 1, .worker 0] ⟨[false]⟩).1.isOk =
      true := by decide +kernel
  obtain ⟨hcourses, -, htallied⟩ :=
    mine_tallies patientJob 2 ⟨6, 8⟩ ⟨0, none⟩ [.worker 1, .worker 0] ⟨[false]⟩
  obtain ⟨result?, hcourse, -⟩ := hcourses 1 ⟨7, 8⟩ hpart
  refine ⟨hpart, ⟨result?, hcourse⟩, ?_⟩
  cases hmine : patientJob.mine 2 ⟨6, 8⟩ ⟨0, none⟩ [.worker 1, .worker 0] ⟨[false]⟩ with
  | mk outcome after =>
      cases outcome with
      | error e =>
          rw [hmine] at hok
          nomatch hok
      | ok mined => exact ⟨mined, after, rfl, htallied mined after hmine⟩

/-- A job whose solver fails in the first nonce after two solutions that do not verify, and offers
one that verifies for any other. -/
def faultyJob : MiningJob where
  solver := .scripted "faulty" [[1]] [(6, ⟨[[1], [1]], false, .fail (.solver "disk")⟩)]
    ⟨[[5]], false, .answer⟩
  header := { (default : Header) with bits := 0x207fffff }
  powLimit := BitVec.allOnes 256 >>> 1

/-- The header that one worker finds comes with its one nonce, without the nonce of the worker that
failed meanwhile and without the two solutions that this one had rejected. -/
theorem mine_misses_faultyJob :
    ((faultyJob.mine 2 ⟨6, 8⟩ ⟨0, none⟩ [] ⟨[false]⟩).1.toOption.map fun mined =>
      (mined.noncesTried, mined.solutionsRejected)) = some (1, 0) ∧
    handed ((faultyJob.record 2 ⟨6, 8⟩ ⟨0, none⟩ [] ⟨[false]⟩).map (·.action)) = [6, 7] ∧
    rejections ((faultyJob.record 2 ⟨6, 8⟩ ⟨0, none⟩ [] ⟨[false]⟩).map (·.action)) = 2 := by
  have hrecord : faultyJob.record 2 ⟨6, 8⟩ ⟨0, none⟩ [] ⟨[false]⟩ =
      [⟨0, .looked false⟩, ⟨1, .looked false⟩, ⟨0, .noted (.handed 6)⟩, ⟨1, .noted (.handed 7)⟩,
        ⟨0, .noted (.answered [1] false)⟩, ⟨1, .noted (.answered [5] true)⟩,
        ⟨0, .noted (.answered [1] false)⟩, ⟨1, .raised⟩] := by decide +kernel
  refine ⟨by decide +kernel, ?_, ?_⟩
  · rw [hrecord]
    rfl
  · rw [hrecord]
    rfl

end MiningJob

end BlockProduction

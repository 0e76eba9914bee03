import BlockProduction.Proofs.Mining.Agreement

/-!
# Accepted solutions

All solutions that pass in a run are offered in one attempt, and no nonce is
tried after it.  If the solver comes back without a failure, the run gives the
one that was offered last.  So the first one is kept as long as the solver heeds
an acceptance, and only then: a later solution that passes takes its place, and
a failure after it is all that the run reports.
-/

namespace BlockProduction

/-! ## Offers of a course -/

/-- A solution, and the nonce that it is for. -/
structure Offer where
  nonce : Word256
  solution : Bytes
  deriving DecidableEq

/-- The solutions that come back, where `nonce` went to the solver before. -/
def offers (nonce : Word256) : List Action → List Offer
  | [] => []
  | .noted (.handed next) :: rest => offers next rest
  | .noted (.answered solution _) :: rest => ⟨nonce, solution⟩ :: offers nonce rest
  | .looked _ :: rest => offers nonce rest
  | .raised :: rest => offers nonce rest

/-- The solution that an action says to be accepted. -/
def Action.taken? : Action → Option Bytes
  | .noted (.answered solution true) => some solution
  | _ => none

/-- The solutions that are said to be accepted, in order. -/
def taken (actions : List Action) : List Bytes :=
  actions.filterMap Action.taken?

@[simp] theorem taken_append (first second : List Action) :
    taken (first ++ second) = taken first ++ taken second :=
  List.filterMap_append

theorem taken_answered (solution : Bytes) (accepted : Bool) :
    taken [.noted (.answered solution accepted)] = if accepted then [solution] else [] := by
  cases accepted <;> rfl

namespace MiningJob

/-- The header with what an offer brings. -/
def sealed (job : MiningJob) (offer : Offer) : Header :=
  { job.header with nonce := .ofWord offer.nonce, solution := offer.solution }

/-- The solver verifies the solution, and the header with it meets the target. -/
def passes (job : MiningJob) (offer : Offer) : Bool :=
  job.solver.verify (.ofMidstate job.header.midstate offer.nonce) offer.solution &&
    CompactTarget.meets (job.sealed offer).hash job.header.bits job.powLimit

/-- The offers of a course that pass. -/
def passed (job : MiningJob) (nonce : Word256) (actions : List Action) : List Offer :=
  (offers nonce actions).filter job.passes

variable {job : MiningJob} {nonce : Word256} {attempt : Attempt} {tried actions : List Action}
  {answer? : Option (Except Error Bool)} {result? : Option SessionRun}

theorem passes_eq (job : MiningJob) (nonce : Word256) (solution : Bytes) :
    job.passes ⟨nonce, solution⟩ = job.accepts nonce solution := by
  rw [Bool.eq_iff_iff, accepts_iff, passes, Bool.and_eq_true]
  rfl

/-- What passes in an attempt is what is accepted there. -/
theorem passed_append (h : attempt.Course (job.accepts nonce) tried answer?)
    (rest : List Action) : job.passed nonce (tried ++ rest) =
      (taken tried).map (Offer.mk nonce) ++ job.passed nonce rest := by
  induction h with
  | finish answer => rfl
  | crash => rfl
  | @offer solution next later answer? h ih =>
      show List.filter job.passes (⟨nonce, solution⟩ :: offers nonce (later ++ rest)) =
        (taken ([.noted (.answered solution _)] ++ later)).map (Offer.mk nonce) ++ _
      rw [List.filter_cons, passes_eq, taken_append, taken_answered, List.map_append,
        List.append_assoc, ← ih, passed]
      cases job.accepts nonce solution <;> rfl
  | poll raised h ih => exact ih
  | raise h ih => exact ih

theorem passed_course (h : attempt.Course (job.accepts nonce) tried answer?) :
    job.passed nonce tried = (taken tried).map (Offer.mk nonce) := by
  have happend := passed_append h []
  rw [List.append_nil] at happend
  rw [happend]
  exact List.append_nil _

/-! ## Attempts -/

/-- The solution that a tally holds after a course of an attempt: the last one that was accepted
in it, or else the one from before. -/
def Tally.Keeps (before : Tally) (tried : List Action) (after : Tally) : Prop :=
  after.accepted?.map (·.1) = (taken tried).getLast?.or (before.accepted?.map (·.1))

theorem Tally.Keeps.trans {before between after : Tally} {first second : List Action}
    (hfirst : before.Keeps first between) (hsecond : between.Keeps second after) :
    before.Keeps (first ++ second) after := by
  unfold Tally.Keeps at hfirst hsecond ⊢
  rw [hsecond, hfirst, taken_append, List.getLast?_append, Option.or_assoc]

theorem Tally.Keeps.eq_getLast? {rejected : Nat} {after : Tally}
    (h : Tally.Keeps ⟨none, rejected⟩ tried after) :
    after.accepted?.map (·.1) = (taken tried).getLast? := by
  unfold Tally.Keeps at h
  rw [h]
  exact Option.or_none

/-- An offer that is accepted takes the place of the one in the tally. -/
theorem follow_offer_keeps {α : Type} (job : MiningJob) (nonce : Word256)
    (k : Except Error Bool → Tally → Work α) (solution : Bytes) (next : Bool → Attempt)
    (tally : Tally) :
    ∃ told : Tally, tally.Keeps [.noted (.answered solution (job.accepts nonce solution))] told ∧
      job.follow (.ofMidstate job.header.midstate nonce) k (.offer solution next) tally =
        .note (.answered solution (job.accepts nonce solution))
          (job.follow (.ofMidstate job.header.midstate nonce) k
            (next (job.accepts nonce solution)) told) := by
  unfold accepts
  rw [follow]
  cases job.accept? (.ofMidstate job.header.midstate nonce) solution with
  | some hash => exact ⟨{ tally with accepted? := some (solution, hash) }, rfl, rfl⟩
  | none => exact ⟨{ tally with rejected := tally.rejected + 1 }, rfl, rfl⟩

/-- An attempt that is followed crashes, or comes back with the solution that was accepted
last. -/
theorem course_follow_keeps {α : Type} {k : Except Error Bool → Tally → Work α} {tally : Tally}
    {result? : Option α}
    (h : (job.follow (.ofMidstate job.header.midstate nonce) k attempt tally).Course
      actions result?) :
    attempt.Course (job.accepts nonce) actions none ∧ result? = none ∨
    ∃ tried rest answer after, attempt.Course (job.accepts nonce) tried (some answer) ∧
      tally.Keeps tried after ∧ (k answer after).Course rest result? ∧ actions = tried ++ rest := by
  induction attempt generalizing tally actions with
  | finish answer => exact .inr ⟨[], actions, answer, tally, .finish answer, rfl, h, rfl⟩
  | offer solution next ih =>
      obtain ⟨told, htold, hfollow⟩ := job.follow_offer_keeps nonce k solution next tally
      rw [hfollow] at h
      cases h with
      | note h =>
          rcases ih _ h with ⟨hcourse, hnone⟩ |
            ⟨tried, rest, answer, after, hcourse, hkeeps, hrest, rfl⟩
          · exact .inl ⟨.offer hcourse, hnone⟩
          · exact .inr ⟨_, rest, answer, after, .offer hcourse, htold.trans hkeeps, hrest, rfl⟩
  | poll next ih =>
      cases h with
      | poll raised h =>
          rcases ih raised h with ⟨hcourse, hnone⟩ |
            ⟨tried, rest, answer, after, hcourse, hkeeps, hrest, rfl⟩
          · exact .inl ⟨.poll raised hcourse, hnone⟩
          · exact .inr ⟨_, rest, answer, after, .poll raised hcourse, hkeeps, hrest, rfl⟩
  | raise next ih =>
      cases h with
      | raise h =>
          rcases ih h with ⟨hcourse, hnone⟩ |
            ⟨tried, rest, answer, after, hcourse, hkeeps, hrest, rfl⟩
          · exact .inl ⟨.raise hcourse, hnone⟩
          · exact .inr ⟨_, rest, answer, after, .raise hcourse, hkeeps, hrest, rfl⟩
  | crash =>
      cases h
      exact .inl ⟨.crash, rfl⟩

/-- An attempt takes each of its courses when it is followed, as long as nothing comes after
it. -/
theorem follow_course {α : Type} (k : Except Error Bool → Tally → Work α)
    (h : attempt.Course (job.accepts nonce) tried answer?) (tally : Tally) :
    ∃ after, tally.Keeps tried after ∧ ∀ result?,
      (answer?.elim .crashed fun answer => k answer after).Course [] result? →
      (job.follow (.ofMidstate job.header.midstate nonce) k attempt tally).Course
        tried result? := by
  induction h generalizing tally with
  | finish answer => exact ⟨tally, rfl, fun _ hrest => hrest⟩
  | crash => exact ⟨tally, rfl, fun _ hrest => hrest⟩
  | @offer solution next later answer? h ih =>
      obtain ⟨told, htold, hfollow⟩ := job.follow_offer_keeps nonce k solution next tally
      obtain ⟨after, hafter, hcourse⟩ := ih told
      rw [hfollow]
      exact ⟨after, htold.trans hafter, fun _ hrest => .note (hcourse _ hrest)⟩
  | poll raised h ih =>
      obtain ⟨after, hafter, hcourse⟩ := ih tally
      exact ⟨after, hafter, fun _ hrest => .poll raised (hcourse _ hrest)⟩
  | raise h ih =>
      obtain ⟨after, hafter, hcourse⟩ := ih tally
      exact ⟨after, hafter, fun _ hrest => .raise (hcourse _ hrest)⟩

/-! ## Runs -/

/-- How a run ends with the answer of an attempt for `nonce`, and with what was accepted in it. -/
inductive Ends (job : MiningJob) (nonce : Word256) (accepted : List Bytes) :
    Option (Except Error Bool) → Option SessionRun → Prop
  | crashed : Ends job nonce accepted none none
  | failed (failure reported : Error) (after : Session) :
      Ends job nonce accepted (some (.error failure)) (some (.error reported, after))
  | found {claimed : Bool} {mined : Mined} {after : Session} {latest : Bytes}
      (hlatest : accepted.getLast? = some latest)
      (hheader : mined.header = job.sealed ⟨nonce, latest⟩) :
      Ends job nonce accepted (some (.ok claimed)) (some (.ok mined, after))

variable {remaining : Nat} {s : Session}

/-- With an answer a run is over, unless nothing was accepted before it. -/
theorem conclude_ends_or_goes_on {accepted? : Option (Bytes × Hash256)} {accepted : List Bytes}
    (haccepted : accepted?.map (·.1) = accepted.getLast?) (answer : Except Error Bool) :
    (∃ run, job.conclude remaining nonce s accepted? answer = .done run ∧
      job.Ends nonce accepted (some answer) (some run)) ∨
    accepted = [] ∧
      job.conclude remaining nonce s accepted? answer = job.goOn remaining nonce s := by
  cases answer with
  | error e =>
      -- every failure ends the run, and none of them looks at the tally
      cases e with
      | _ => exact .inl ⟨_, rfl, .failed _ _ _⟩
  | ok claimed =>
      cases accepted? with
      | some latest => exact .inl ⟨_, rfl, .found haccepted.symm rfl⟩
      | none => exact .inr ⟨List.getLast?_eq_none_iff.mp haccepted.symm, rfl⟩

/-- Nothing passes in a run and it gives no header, or all that passes does so in one attempt,
with which the run ends. -/
inductive Passes (job : MiningJob) : List Offer → Option SessionRun → Prop
  | nothing (failure : Error) (after : Session) : Passes job [] (some (.error failure, after))
  | attempt {calls : Nat} {nonce : Word256} {tried : List Action}
      {answer? : Option (Except Error Bool)} {result? : Option SessionRun}
      (hcourse : (job.solver.attempt calls (.ofMidstate job.header.midstate nonce)).Course
        (job.accepts nonce) tried answer?)
      (hends : job.Ends nonce (taken tried) answer? result?) :
      Passes job ((taken tried).map (Offer.mk nonce)) result?

/-- At a nonce a run ends with what passes there, or nothing passes and the run goes on. -/
theorem passes_or_goes_on {before : Word256}
    (h : (job.mineFrom job.header.midstate remaining nonce s).Course actions result?) :
    job.Passes (job.passed before actions) result? ∨
    ∃ rest next, job.passed before actions = job.passed nonce rest ∧
      (job.goOn remaining nonce next).Course rest result? := by
  rw [mineFrom_eq] at h
  cases h with
  | @poll _ actions result? raised h =>
      cases raised with
      | true =>
          cases h
          exact .inl (.nothing _ _)
      | false =>
          cases h with
          | @note _ _ actions result? h =>
              show job.Passes (job.passed nonce actions) result? ∨
                ∃ rest next, job.passed nonce actions = _ ∧ _
              rcases course_follow_keeps h with ⟨hcourse, rfl⟩ |
                ⟨tried, rest, answer, after, hcourse, hkeeps, hrest, rfl⟩
              · rw [passed_course hcourse]
                exact .inl (.attempt hcourse .crashed)
              · rcases conclude_ends_or_goes_on hkeeps.eq_getLast? answer with
                  ⟨run, hrun, hends⟩ | ⟨hnone, hgoes⟩
                · rw [hrun] at hrest
                  cases hrest
                  rw [List.append_nil, passed_course hcourse]
                  exact .inl (.attempt hcourse hends)
                · rw [hgoes] at hrest
                  rw [passed_append hcourse, hnone]
                  exact .inr ⟨rest, _, rfl, hrest⟩

theorem passes_of_course {before : Word256}
    (h : (job.mineFrom job.header.midstate remaining nonce s).Course actions result?) :
    job.Passes (job.passed before actions) result? := by
  induction remaining generalizing nonce s actions before with
  | zero =>
      rcases passes_or_goes_on h with hpasses | ⟨rest, next, heq, hgoes⟩
      · exact hpasses
      · rw [heq]
        cases hgoes
        exact .nothing _ _
  | succ remaining ih =>
      rcases passes_or_goes_on h with hpasses | ⟨rest, next, heq, hgoes⟩
      · exact hpasses
      · rw [heq]
        exact ih hgoes

theorem passes_run {range : NonceRange} (h : (job.run s range).Course actions result?) :
    job.Passes (job.passed range.start actions) result? := by
  unfold run at h
  split at h
  · cases h
    exact .nothing _ _
  · exact passes_of_course h

/-- A run over one nonce ends after each course of an attempt in which a solution is accepted. -/
theorem run_ends {calls : Nat}
    (h : (job.solver.attempt calls (.ofMidstate job.header.midstate nonce)).Course
      (job.accepts nonce) tried answer?) (hsome : taken tried ≠ []) :
    ∃ result?, (job.run ⟨.idle, calls, 0⟩ ⟨nonce, nonce⟩).Course
        (.looked false :: .noted (.handed nonce) :: tried) result? ∧
      job.Ends nonce (taken tried) answer? result? := by
  have hrun : job.run ⟨.idle, calls, 0⟩ ⟨nonce, nonce⟩ =
      job.mineFrom job.header.midstate 0 nonce ⟨.idle, calls, 0⟩ := by
    simp [run, NonceRange.isEmpty, NonceRange.width]
  rw [hrun, mineFrom_eq]
  obtain ⟨after, hafter, hcourse⟩ := follow_course (fun answer tally => job.conclude 0 nonce
    ⟨.idle, calls + 1, 0 + tally.rejected⟩ tally.accepted? answer) h ⟨none, 0⟩
  cases answer? with
  | none => exact ⟨none, .poll false (.note (hcourse none .crashed)), .crashed⟩
  | some answer =>
      rcases conclude_ends_or_goes_on hafter.eq_getLast? answer with
        ⟨run, hrun, hends⟩ | ⟨hnone, -⟩
      · refine ⟨some run, .poll false (.note (hcourse _ ?_)), hends⟩
        show (job.conclude _ _ _ _ _).Course [] _
        rw [hrun]
        exact .done run
      · exact absurd hnone hsome

/-- In every run in which a solution passes, whatever the flag shows, the first such solution is
in the header that the run gives. -/
def KeepsFirst (job : MiningJob) : Prop :=
  ∀ (s : Session) (range : NonceRange) (actions : List Action) (result? : Option SessionRun),
    (job.run s range).Course actions result? →
    ∀ (first : Offer) (others : List Offer),
      job.passed range.start actions = first :: others →
      ∃ mined after, result? = some (.ok mined, after) ∧ mined.header = job.sealed first

/-- Once a solution was accepted, the solver comes back without a failure, and the solution that
is accepted last is the one that was accepted first. -/
def Heeds (job : MiningJob) : Prop :=
  ∀ (calls : Nat) (nonce : Word256) (tried : List Action) (answer? : Option (Except Error Bool)),
    (job.solver.attempt calls (.ofMidstate job.header.midstate nonce)).Course
      (job.accepts nonce) tried answer? →
    ∀ (first : Bytes) (others : List Bytes), taken tried = first :: others →
      (∃ claimed, answer? = some (.ok claimed)) ∧ others.getLastD first = first

section

variable {accepted others : List Bytes} {first : Bytes}

theorem Ends.header_eq (h : job.Ends nonce accepted answer? result?)
    (haccepted : accepted = first :: others) {mined : Mined} {after : Session}
    (hresult : result? = some (.ok mined, after)) :
    mined.header = job.sealed ⟨nonce, others.getLastD first⟩ := by
  cases h with
  | crashed => nomatch hresult
  | failed failure reported after => nomatch hresult
  | @found claimed found after latest hlatest hheader =>
      cases hresult
      rw [haccepted, List.getLast?_cons, ← List.getLastD_eq_getLast?] at hlatest
      rw [hheader, Option.some.inj hlatest]

theorem Ends.ok_iff (h : job.Ends nonce accepted answer? result?) :
    (∃ mined after, result? = some (.ok mined, after)) ↔
      ∃ claimed, answer? = some (.ok claimed) := by
  cases h with
  | crashed => simp
  | failed failure reported after => simp
  | found hlatest hheader => simp

end

/-- The first solution that passes is kept in all runs exactly if the solver heeds it. -/
theorem keepsFirst_iff (job : MiningJob) : job.KeepsFirst ↔ job.Heeds := by
  constructor
  · intro hkeeps calls nonce tried answer? hcourse first others htaken
    have hsome : taken tried ≠ [] := by
      rw [htaken]
      nofun
    obtain ⟨result?, hrun, hends⟩ := run_ends hcourse hsome
    have hpassed : job.passed nonce tried = _ := passed_course hcourse
    rw [htaken] at hpassed
    obtain ⟨mined, after, hresult, hfirst⟩ :=
      hkeeps _ ⟨nonce, nonce⟩ _ result? hrun _ _ hpassed
    have hlast := hends.header_eq htaken hresult
    exact ⟨hends.ok_iff.mp ⟨mined, after, hresult⟩,
      congrArg Header.solution (hlast.symm.trans hfirst)⟩
  · intro hheeds s range actions result? hrun first others hpassed
    have hpasses := passes_run hrun
    rw [hpassed] at hpasses
    generalize hoffers : first :: others = passed at hpasses
    cases hpasses with
    | nothing failure after => nomatch hoffers
    | @attempt calls nonce tried answer? result? hcourse hends =>
        cases htaken : taken tried with
        | nil =>
            rw [htaken] at hoffers
            nomatch hoffers
        | cons solution rest =>
            obtain ⟨hanswer, hlatest⟩ := hheeds calls nonce tried answer? hcourse _ _ htaken
            obtain ⟨mined, after, hresult⟩ := hends.ok_iff.mpr hanswer
            have hheader := hends.header_eq htaken hresult
            rw [hlatest] at hheader
            rw [htaken] at hoffers
            cases hoffers
            exact ⟨mined, after, hresult, hheader⟩

theorem Passes.latest_eq {passed : List Offer} (h : job.Passes passed result?) {mined : Mined}
    {after : Session} (hresult : result? = some (.ok mined, after)) :
    ∃ latest, passed.getLast? = some latest ∧ mined.header = job.sealed latest := by
  cases h with
  | nothing failure after => nomatch hresult
  | @attempt calls nonce tried answer? result? hcourse hends =>
      cases hends with
      | crashed => nomatch hresult
      | failed failure reported after => nomatch hresult
      | @found claimed found after latest hlatest hheader =>
          cases hresult
          refine ⟨⟨nonce, latest⟩, ?_, hheader⟩
          rw [List.getLast?_map, hlatest]
          rfl

/-- Whatever the solver does and the flag shows, the header that a run gives brings the last of
the solutions that passed.  The first of them is in the header that every such run gives exactly
if the solver heeds what it is told. -/
theorem accepted_kept (job : MiningJob) :
    (∀ (s : Session) (range : NonceRange) (actions : List Action) (mined : Mined)
      (after : Session),
      (job.run s range).Course actions (some (.ok mined, after)) →
      ∃ latest, (job.passed range.start actions).getLast? = some latest ∧
        mined.header = job.sealed latest) ∧
    (job.KeepsFirst ↔ job.Heeds) := by
  refine ⟨fun s range actions mined after hrun => ?_, job.keepsFirst_iff⟩
  exact (passes_run hrun).latest_eq rfl

/-! ### Solvers -/

theorem taken_le_of_offers {accepts : Bytes → Bool} {candidates : List Bytes}
    (hoffers : attempt.Offers candidates) (h : attempt.Course accepts tried answer?) :
    (taken tried).length ≤ min 1 candidates.length ∧ ∃ claimed, answer? = some (.ok claimed) := by
  induction hoffers generalizing tried with
  | finish claimed =>
      cases h
      exact ⟨Nat.zero_le _, claimed, rfl⟩
  | @offer solution rest next htaken hrefused ihtaken ihrefused =>
      cases h with
      | @offer _ _ later answer? h =>
          show (taken ([.noted (.answered solution (accepts solution))] ++ later)).length ≤ _ ∧ _
          rw [taken_append, taken_answered, List.length_append, List.length_cons]
          cases haccepts : accepts solution with
          | true =>
              rw [haccepts] at h
              obtain ⟨hlater, hanswer⟩ := ihtaken h
              have hone : (if true then [solution] else []).length = 1 := rfl
              rw [List.length_nil] at hlater
              exact ⟨by omega, hanswer⟩
          | false =>
              rw [haccepts] at h
              obtain ⟨hlater, hanswer⟩ := ihrefused h
              have hzero : (if false then [solution] else []).length = 0 := rfl
              exact ⟨by omega, hanswer⟩
  | poll h ih =>
      cases h with
      | poll raised h =>
          have hlater := ih raised h
          exact hlater

/-- A solver that takes the first acceptance for an answer heeds it. -/
theorem Offers.heeds {candidates : Word256 → List Bytes} (h : job.Offers candidates) :
    job.Heeds := by
  intro calls nonce tried answer? hcourse first others htaken
  obtain ⟨hlength, hanswer⟩ := taken_le_of_offers (h calls nonce) hcourse
  have hnone : others = [] := by
    rw [htaken, List.length_cons] at hlength
    exact List.length_eq_zero_iff.mp (by omega)
  rw [hnone]
  exact ⟨hanswer, rfl⟩

/-- The solver that knows no solution but the empty one heeds it. -/
theorem heeds_null (hnull : job.solver = .null) : job.Heeds := by
  intro calls nonce tried answer? hcourse first others htaken
  rw [hnull] at hcourse
  cases hcourse with
  | poll raised h =>
      cases raised with
      | true =>
          -- the attempt is given up before anything is offered
          cases h
          nomatch htaken
      | false =>
          cases h with
          | offer h =>
              cases h
              change taken [.noted (.answered [] (job.accepts nonce []))] = _ at htaken
              rw [taken_answered] at htaken
              split at htaken
              · cases htaken
                exact ⟨⟨_, rfl⟩, rfl⟩
              · nomatch htaken

/-- A job whose solver plays a script for each nonce, and a target that half of all hashes
meet. -/
def lenientJob (script : Script) : MiningJob where
  solver := .scripted "lenient" [] [] script
  header := { (default : Header) with bits := 0x207fffff }
  powLimit := BitVec.allOnes 256 >>> 1

theorem accepts_lenientJob (script : Script) :
    (lenientJob script).accepts 0 [1] = false ∧ (lenientJob script).accepts 0 [2] = true ∧
      (lenientJob script).accepts 0 [5] = true := by
  -- what is accepted is no matter of the script
  show (lenientJob default).accepts 0 [1] = false ∧ (lenientJob default).accepts 0 [2] = true ∧
    (lenientJob default).accepts 0 [5] = true
  decide +kernel

theorem course_offer {accepts : Bytes → Bool} {solution : Bytes} {next : Bool → Attempt}
    {verdict : Bool} (hverdict : accepts solution = verdict)
    (h : (next verdict).Course accepts tried answer?) :
    (Attempt.offer solution next).Course accepts
      (.noted (.answered solution verdict) :: tried) answer? := by
  subst hverdict
  exact .offer h

/-- The solver takes what is accepted for an answer. -/
def heedfulJob : MiningJob := lenientJob ⟨[[1], [2], [5]], false, .answer⟩

/-- The solver goes on offering after an acceptance. -/
def restlessJob : MiningJob := lenientJob ⟨[[2], [5]], true, .answer⟩

/-- The solver fails after an acceptance. -/
def failingJob : MiningJob := lenientJob ⟨[[2]], false, .fail (.solver "disk")⟩

theorem course_heedfulJob :
    (heedfulJob.solver.attempt 0 (.ofMidstate heedfulJob.header.midstate 0)).Course
      (heedfulJob.accepts 0) [.noted (.answered [1] false), .noted (.answered [2] true)]
      (some (.ok true)) := by
  obtain ⟨hone, htwo, -⟩ := accepts_lenientJob ⟨[[1], [2], [5]], false, .answer⟩
  exact course_offer hone (course_offer htwo (.finish _))

theorem course_restlessJob :
    (restlessJob.solver.attempt 0 (.ofMidstate restlessJob.header.midstate 0)).Course
      (restlessJob.accepts 0) [.noted (.answered [2] true), .noted (.answered [5] true)]
      (some (.ok true)) := by
  obtain ⟨-, htwo, hfive⟩ := accepts_lenientJob ⟨[[2], [5]], true, .answer⟩
  exact course_offer htwo (course_offer hfive (.finish _))

theorem course_failingJob :
    (failingJob.solver.attempt 0 (.ofMidstate failingJob.header.midstate 0)).Course
      (failingJob.accepts 0) [.noted (.answered [2] true)] (some (.error (.solver "disk"))) := by
  obtain ⟨-, htwo, -⟩ := accepts_lenientJob ⟨[[2]], false, .fail (.solver "disk")⟩
  exact course_offer htwo (.finish _)

theorem accepted_kept_lenientJob :
    (∃ actions mined after, (heedfulJob.run ⟨.idle, 0, 0⟩ ⟨0, 0⟩).Course actions
      (some (.ok mined, after)) ∧ mined.header.solution = [2]) ∧
    ∃ actions mined after, (restlessJob.run ⟨.idle, 0, 0⟩ ⟨0, 0⟩).Course actions
      (some (.ok mined, after)) ∧ mined.header.solution = [5] := by
  constructor
  · obtain ⟨result?, hrun, -⟩ := run_ends course_heedfulJob (by decide)
    have hheeds : heedfulJob.Heeds :=
      Offers.heeds fun _ _ => Script.offers_attempt [[1], [2], [5]]
    have hpassed : heedfulJob.passed 0 _ = [⟨0, [2]⟩] := passed_course course_heedfulJob
    obtain ⟨mined, after, rfl, hheader⟩ :=
      (accepted_kept heedfulJob).2.mpr hheeds _ ⟨0, 0⟩ _ result? hrun _ [] hpassed
    exact ⟨_, mined, after, hrun, congrArg Header.solution hheader⟩
  · obtain ⟨result?, hrun, hends⟩ := run_ends course_restlessJob (by decide)
    obtain ⟨mined, after, rfl⟩ := hends.ok_iff.mpr ⟨true, rfl⟩
    obtain ⟨latest, hlatest, hheader⟩ :=
      (accepted_kept restlessJob).1 _ ⟨0, 0⟩ _ mined after hrun
    have hpassed : restlessJob.passed 0 _ = [⟨0, [2]⟩, ⟨0, [5]⟩] :=
      passed_course course_restlessJob
    have hfive : some ⟨0, [5]⟩ = some latest := by
      rw [← hlatest]
      exact (congrArg List.getLast? hpassed).symm
    cases hfive
    exact ⟨_, mined, after, hrun, congrArg Header.solution hheader⟩

/-- A solution that passed is not in the header if another one passes after it, or if the solver
fails. -/
theorem accepted_lost : ¬restlessJob.KeepsFirst ∧ ¬failingJob.KeepsFirst := by
  rw [keepsFirst_iff, keepsFirst_iff]
  constructor
  · intro hheeds
    have hlast := (hheeds 0 0 _ _ course_restlessJob _ _ rfl).2
    nomatch hlast
  · intro hheeds
    obtain ⟨claimed, hanswer⟩ := (hheeds 0 0 _ _ course_failingJob _ _ rfl).1
    nomatch hanswer

end MiningJob

end BlockProduction

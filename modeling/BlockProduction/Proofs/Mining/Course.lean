import BlockProduction.Mining.Session
import BlockProduction.Proofs.Mining.Work

/-!
# Courses of work

A course is everything that work visibly does from its start to its end, with
what each of its looks at the flag shows.  Every history of the flag leads work
along a course, so that what holds of all courses holds whoever raises and
lowers the flag, and whenever.
-/

namespace BlockProduction

inductive Action where
  /-- A look at the flag, and whether it was raised. -/
  | looked (raised : Bool)
  /-- The flag is raised. -/
  | raised
  | noted (event : MiningEvent)
  deriving DecidableEq

namespace Action

def sight? : Action → Option Bool
  | .looked shown => some shown
  | _ => none

def handed? : Action → Option Word256
  | .noted (.handed nonce) => some nonce
  | _ => none

/-- Whether a solution comes back and is accepted, or not, as `verdict` says. -/
def answers (verdict : Bool) : Action → Bool
  | .noted (.answered _ accepted) => accepted == verdict
  | _ => false

end Action

/-! ## What a course shows -/

/-- What the looks at the flag show, in order. -/
def sights (actions : List Action) : List Bool :=
  actions.filterMap Action.sight?

@[simp] theorem sights_looked (raised : Bool) (actions : List Action) :
    sights (.looked raised :: actions) = raised :: sights actions := rfl

@[simp] theorem sights_raised (actions : List Action) :
    sights (.raised :: actions) = sights actions := rfl

@[simp] theorem sights_noted (event : MiningEvent) (actions : List Action) :
    sights (.noted event :: actions) = sights actions := rfl

/-- The nonces that go to the solver, in order. -/
def handed (actions : List Action) : List Word256 :=
  actions.filterMap Action.handed?

/-- The number of solutions that come back and are not accepted. -/
def rejections (actions : List Action) : Nat :=
  actions.countP (Action.answers false)

@[simp] theorem handed_append (first second : List Action) :
    handed (first ++ second) = handed first ++ handed second :=
  List.filterMap_append

@[simp] theorem rejections_append (first second : List Action) :
    rejections (first ++ second) = rejections first + rejections second :=
  List.countP_append

namespace Work

variable {α : Type}

/-- What work does to its end, and its result unless it crashes. -/
inductive Course : Work α → List Action → Option α → Prop
  | done (result : α) : Course (.done result) [] (some result)
  | crashed : Course .crashed [] none
  | poll {next : Bool → Work α} {actions : List Action} {result? : Option α} (raised : Bool)
      (h : Course (next raised) actions result?) :
      Course (.poll next) (.looked raised :: actions) result?
  | raise {next : Work α} {actions : List Action} {result? : Option α}
      (h : Course next actions result?) : Course (.raise next) (.raised :: actions) result?
  | note {event : MiningEvent} {next : Work α} {actions : List Action} {result? : Option α}
      (h : Course next actions result?) :
      Course (.note event next) (.noted event :: actions) result?

/-- Whatever the flag shows, look after look, work comes to an end. -/
theorem exists_course (w : Work α) (history : Nat → Bool) :
    ∃ actions result?, w.Course actions result? ∧
      sights actions = (List.range (sights actions).length).map history := by
  induction w generalizing history with
  | done result => exact ⟨[], some result, .done result, rfl⟩
  | crashed => exact ⟨[], none, .crashed, rfl⟩
  | poll next ih =>
      obtain ⟨actions, result?, hcourse, hsights⟩ := ih (history 0) fun i => history (i + 1)
      refine ⟨_, result?, .poll (history 0) hcourse, ?_⟩
      rw [sights_looked, List.length_cons, List.range_succ_eq_map, List.map_cons, List.map_map]
      exact congrArg (history 0 :: ·) hsights
  | raise next ih =>
      obtain ⟨actions, result?, hcourse, hsights⟩ := ih history
      refine ⟨_, result?, .raise hcourse, ?_⟩
      rw [sights_raised]
      exact hsights
  | note event next ih =>
      obtain ⟨actions, result?, hcourse, hsights⟩ := ih history
      refine ⟨_, result?, .note hcourse, ?_⟩
      rw [sights_noted]
      exact hsights

/-- Work that is carried out alone takes one of its courses. -/
theorem course_runAlone (flag : CancelFlag) (w : Work α) (store : FlagStore) :
    ∃ actions, w.Course actions (w.runAlone flag store).1 := by
  induction w generalizing store with
  | done result => exact ⟨[], .done result⟩
  | crashed => exact ⟨[], .crashed⟩
  | poll next ih =>
      obtain ⟨actions, hcourse⟩ := ih (store.isRaised flag) store
      exact ⟨_, .poll _ hcourse⟩
  | raise next ih =>
      obtain ⟨actions, hcourse⟩ := ih (store.raise flag)
      exact ⟨_, .raise hcourse⟩
  | note event next ih =>
      obtain ⟨actions, hcourse⟩ := ih store
      exact ⟨_, .note hcourse⟩

end Work

/-! ## Attempts -/

/-- What an attempt of a solver does to its end, and its answer unless it crashes, where
`accepts` tells which solutions are accepted. -/
inductive Attempt.Course (accepts : Bytes → Bool) :
    Attempt → List Action → Option (Except Error Bool) → Prop
  | finish (answer : Except Error Bool) : Course accepts (.finish answer) [] (some answer)
  | crash : Course accepts .crash [] none
  | offer {solution : Bytes} {next : Bool → Attempt} {actions : List Action}
      {answer? : Option (Except Error Bool)}
      (h : Course accepts (next (accepts solution)) actions answer?) :
      Course accepts (.offer solution next)
        (.noted (.answered solution (accepts solution)) :: actions) answer?
  | poll {next : Bool → Attempt} {actions : List Action} {answer? : Option (Except Error Bool)}
      (raised : Bool) (h : Course accepts (next raised) actions answer?) :
      Course accepts (.poll next) (.looked raised :: actions) answer?
  | raise {next : Attempt} {actions : List Action} {answer? : Option (Except Error Bool)}
      (h : Course accepts next actions answer?) :
      Course accepts (.raise next) (.raised :: actions) answer?

theorem Attempt.Course.handed_eq {accepts : Bytes → Bool} {attempt : Attempt}
    {actions : List Action} {answer? : Option (Except Error Bool)}
    (h : attempt.Course accepts actions answer?) : handed actions = [] := by
  induction h with
  | finish answer => rfl
  | crash => rfl
  | offer h ih => exact ih
  | poll raised h ih => exact ih
  | raise h ih => exact ih

namespace MiningJob

variable {job : MiningJob} {nonce : Word256} {α : Type}

/-- Whether a solution for a nonce is accepted. -/
def accepts (job : MiningJob) (nonce : Word256) (solution : Bytes) : Bool :=
  (job.accept? (.ofMidstate job.header.midstate nonce) solution).isSome

/-- What the tally learns during a course of an attempt. -/
structure Tally.Learns (before : Tally) (actions : List Action) (after : Tally) : Prop where
  rejected_eq : after.rejected = before.rejected + rejections actions
  accepted_eq : after.accepted?.isSome =
    (before.accepted?.isSome || actions.any (Action.answers true))

theorem Tally.Learns.trans {before between after : Tally} {first second : List Action}
    (hfirst : before.Learns first between) (hsecond : between.Learns second after) :
    before.Learns (first ++ second) after where
  rejected_eq := by
    rw [hsecond.rejected_eq, hfirst.rejected_eq, rejections_append, Nat.add_assoc]
  accepted_eq := by
    rw [hsecond.accepted_eq, hfirst.accepted_eq, List.any_append, Bool.or_assoc]

/-- An offer is answered as the job accepts it, and the tally learns the answer. -/
theorem follow_offer (job : MiningJob) (nonce : Word256) (k : Except Error Bool → Tally → Work α)
    (solution : Bytes) (next : Bool → Attempt) (tally : Tally) :
    ∃ told : Tally, tally.Learns [.noted (.answered solution (job.accepts nonce solution))] told ∧
      job.follow (.ofMidstate job.header.midstate nonce) k (.offer solution next) tally =
        .note (.answered solution (job.accepts nonce solution))
          (job.follow (.ofMidstate job.header.midstate nonce) k
            (next (job.accepts nonce solution)) told) := by
  unfold accepts
  rw [follow]
  cases job.accept? (.ofMidstate job.header.midstate nonce) solution with
  | some hash =>
      refine ⟨_, ⟨?_, ?_⟩, rfl⟩
      · simp [rejections, Action.answers]
      · simp [Action.answers]
  | none =>
      refine ⟨_, ⟨?_, ?_⟩, rfl⟩
      · simp [rejections, Action.answers]
      · simp [Action.answers]

/-- The courses of an attempt that is followed: a course of the attempt, and then one of what
goes on with its answer. -/
inductive Followed (job : MiningJob) (nonce : Word256) (k : Except Error Bool → Tally → Work α)
    (attempt : Attempt) (tally : Tally) : List Action → Option α → Prop
  | crashed {actions : List Action} (h : attempt.Course (job.accepts nonce) actions none) :
      Followed job nonce k attempt tally actions none
  | answered {tried rest : List Action} {answer : Except Error Bool} {after : Tally}
      {result? : Option α} (h : attempt.Course (job.accepts nonce) tried (some answer))
      (htally : tally.Learns tried after) (hrest : (k answer after).Course rest result?) :
      Followed job nonce k attempt tally (tried ++ rest) result?

theorem course_follow {k : Except Error Bool → Tally → Work α} {attempt : Attempt} {tally : Tally}
    {actions : List Action} {result? : Option α}
    (h : (job.follow (.ofMidstate job.header.midstate nonce) k attempt tally).Course
      actions result?) : job.Followed nonce k attempt tally actions result? := by
  induction attempt generalizing tally actions with
  | finish answer => exact .answered (.finish answer) ⟨rfl, by simp⟩ h
  | offer solution next ih =>
      obtain ⟨told, htold, hfollow⟩ := job.follow_offer nonce k solution next tally
      rw [hfollow] at h
      cases h with
      | note h =>
          cases ih _ h with
          | crashed hcourse => exact .crashed (.offer hcourse)
          | answered hcourse htally hrest =>
              exact .answered (.offer hcourse) (htold.trans htally) hrest
  | poll next ih =>
      cases h with
      | poll raised h =>
          cases ih raised h with
          | crashed hcourse => exact .crashed (.poll raised hcourse)
          | answered hcourse htally hrest =>
              exact .answered (.poll raised hcourse) ⟨htally.rejected_eq, htally.accepted_eq⟩ hrest
  | raise next ih =>
      cases h with
      | raise h =>
          cases ih h with
          | crashed hcourse => exact .crashed (.raise hcourse)
          | answered hcourse htally hrest =>
              exact .answered (.raise hcourse) ⟨htally.rejected_eq, htally.accepted_eq⟩ hrest
  | crash =>
      cases h
      exact .crashed .crash

end MiningJob

end BlockProduction

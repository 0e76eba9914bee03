import BlockProduction.Proofs.Mining.Course
import Mathlib.Data.List.Nodup

/-!
# The visits of a session

A run visits the nonces of its range in order, from the first one on, until it
is cancelled, finds a solution, fails or has visited them all.  The counters of
a session add up over its runs, and its state tells how the latest one ended.
-/

namespace BlockProduction

/-! ## Visits -/

/-- A nonce that went to the solver, what the attempt did, and its answer unless it crashed. -/
structure Visit where
  nonce : Word256
  actions : List Action
  answer? : Option (Except Error Bool)

namespace Visit

/-- A visit with the look at the flag before it. -/
def course (v : Visit) : List Action :=
  .looked false :: .noted (.handed v.nonce) :: v.actions

/-- The solver was asked for this nonce, after a number of calls, and this is what it did. -/
def Made (job : MiningJob) (calls : Nat) (v : Visit) : Prop :=
  (job.solver.attempt calls (.ofMidstate job.header.midstate v.nonce)).Course
    (job.accepts v.nonce) v.actions v.answer?

/-- The solver came back, and nothing that it offered was accepted. -/
def Fruitless (v : Visit) : Prop :=
  (∃ claimed, v.answer? = some (.ok claimed)) ∧ v.actions.any (Action.answers true) = false

variable {v : Visit} {job : MiningJob} {calls : Nat}

theorem Made.handed_eq (h : v.Made job calls) : handed v.course = [v.nonce] := by
  have hnone := Attempt.Course.handed_eq h
  show v.nonce :: handed v.actions = [v.nonce]
  rw [hnone]

theorem rejections_course (v : Visit) : rejections v.course = rejections v.actions := by
  simp [course, rejections, Action.answers]

end Visit

namespace Session

def count (s : Session) (v : Visit) : Session :=
  { s with
    noncesTried := s.noncesTried + 1
    solutionsRejected := s.solutionsRejected + rejections v.actions }

/-- The ends of a run that leave its range unfinished. -/
inductive Stops (s : Session) : SessionRun → Prop
  | found (header : Header) (nonce : Hash256) (solution : Bytes) (hash : Hash256) :
      Stops s (s.found header nonce solution hash)
  | cancelled : Stops s s.cancelled
  | failed (solver : Solver) (e : Error) : Stops s (s.failed solver e)

/-- The state of a session tells the kind of the result that its run has ended with. -/
structure Tells (after : Session) (result : Except Error Mined) : Prop where
  found_iff : after.state = .found ↔ ∃ mined, result = .ok mined
  cancelled_iff : after.state = .cancelled ↔ ∃ n, result = .error (.searchCancelled n)
  exhausted_iff : after.state = .exhausted ↔ ∃ n, result = .error (.noncesExhausted n)
  idle_iff : after.state = .idle ↔ ∃ words, result = .error (.solver words)

variable {s : Session} {run : SessionRun}

/-- Whatever the solver fails with, the failure is reported as one of the solver. -/
theorem failed_eq (s : Session) (solver : Solver) (e : Error) :
    ∃ words, s.failed solver e = (.error (.solver words), { s with state := .idle }) := by
  cases e with
  | solver words => exact ⟨words, rfl⟩
  | _ => exact ⟨_, rfl⟩

theorem Stops.counters (h : s.Stops run) : run.2.noncesTried = s.noncesTried ∧
    run.2.solutionsRejected = s.solutionsRejected := by
  cases h with
  | found header nonce solution hash => exact ⟨rfl, rfl⟩
  | cancelled => exact ⟨rfl, rfl⟩
  | failed solver e => exact ⟨rfl, rfl⟩

theorem Stops.tells (h : s.Stops run) : run.2.Tells run.1 := by
  cases h with
  | found header nonce solution hash => constructor <;> simp [Session.found]
  | cancelled => constructor <;> simp [Session.cancelled]
  | failed solver e =>
      obtain ⟨words, hfailed⟩ := s.failed_eq solver e
      rw [hfailed]
      constructor <;> simp

theorem Stops.not_exhausted (h : s.Stops run) (n : Nat) :
    run.1 ≠ .error (.noncesExhausted n) := by
  cases h with
  | found header nonce solution hash => nofun
  | cancelled => nofun
  | failed solver e =>
      obtain ⟨words, hfailed⟩ := s.failed_eq solver e
      rw [hfailed]
      nofun

theorem tells_exhausted (s : Session) : s.exhausted.2.Tells s.exhausted.1 := by
  constructor <;> simp [Session.exhausted]

end Session

/-! ## Walks -/

namespace MiningJob

/-- What a run goes on with after a visit in vain. -/
def goOn (job : MiningJob) : (remaining : Nat) → (nonce : Word256) → Session → Work SessionRun
  | 0, _, s => .done s.exhausted
  | remaining + 1, nonce, s => job.mineFrom job.header.midstate remaining (nonce + 1) s

/-- What a run does with the answer for a nonce, once the visit is counted. -/
def conclude (job : MiningJob) (remaining : Nat) (nonce : Word256) (s : Session)
    (accepted? : Option (Bytes × Hash256)) : Except Error Bool → Work SessionRun
  | .error (.searchCancelled _) => .done s.cancelled
  | .error e => .done (s.failed job.solver e)
  | .ok _ =>
      match accepted? with
      | some (solution, hash) =>
          .done (s.found job.header (NonceState.ofMidstate job.header.midstate nonce).nonceBytes
            solution hash)
      | none => job.goOn remaining nonce s

theorem mineFrom_eq (job : MiningJob) (remaining : Nat) (nonce : Word256) (s : Session) :
    job.mineFrom job.header.midstate remaining nonce s = .poll fun raised =>
      if raised then .done s.cancelled
      else .note (.handed nonce) (job.follow (.ofMidstate job.header.midstate nonce)
        (fun answer tally => job.conclude remaining nonce
          { s with
            noncesTried := s.noncesTried + 1
            solutionsRejected := s.solutionsRejected + tally.rejected } tally.accepted? answer)
        (job.solver.attempt s.noncesTried (.ofMidstate job.header.midstate nonce)) ⟨none, 0⟩) := by
  rw [mineFrom]
  refine congrArg Work.poll (funext fun raised => ?_)
  refine if_congr Iff.rfl rfl (congrArg (Work.note _) ?_)
  refine congrArg (fun k => job.follow _ k _ _) (funext fun answer => funext fun tally => ?_)
  cases answer with
  | error e => cases e <;> rfl
  | ok claimed =>
      cases remaining with
      | zero => rfl
      | succ fewer => rfl

/-- The ways a run halts at a nonce, whatever nonces are left: the visits, what is done, and the
result. -/
inductive Halts (job : MiningJob) (nonce : Word256) (s : Session) :
    List Visit → List Action → Option SessionRun → Prop
  /-- The look before the visit shows the flag raised. -/
  | stopped : Halts job nonce s [] [.looked true] (some s.cancelled)
  | crashed {v : Visit} (hnonce : v.nonce = nonce) (hmade : v.Made job s.noncesTried)
      (hcrash : v.answer? = none) : Halts job nonce s [v] v.course none
  | ended {v : Visit} {run : SessionRun} (hnonce : v.nonce = nonce)
      (hmade : v.Made job s.noncesTried) (hreturn : v.answer? ≠ none) (hfruit : ¬v.Fruitless)
      (hstops : (s.count v).Stops run) : Halts job nonce s [v] v.course (some run)

variable {job : MiningJob} {remaining : Nat} {nonce : Word256} {s : Session} {visits : List Visit}
  {actions : List Action} {result? : Option SessionRun}

theorem conclude_error (job : MiningJob) (remaining : Nat) (nonce : Word256) (s : Session)
    (accepted? : Option (Bytes × Hash256)) (e : Error) :
    ∃ run, job.conclude remaining nonce s accepted? (.error e) = .done run ∧ s.Stops run := by
  -- only a raised flag is told apart from other failures
  cases e with
  | searchCancelled n => exact ⟨_, rfl, .cancelled⟩
  | _ => exact ⟨_, rfl, .failed job.solver _⟩

/-- An answer halts the run, or the visit was in vain and the run goes on. -/
theorem halts_or_goes_on_of_answer {v : Visit} {rest : List Action} {answer : Except Error Bool}
    {accepted? : Option (Bytes × Hash256)} (hmade : v.Made job s.noncesTried)
    (hanswer : v.answer? = some answer)
    (haccepted : accepted?.isSome = v.actions.any (Action.answers true))
    (hrest : (job.conclude remaining v.nonce (s.count v) accepted? answer).Course rest result?) :
    (∃ visits, job.Halts v.nonce s visits (v.course ++ rest) result?) ∨
      v.Fruitless ∧ (job.goOn remaining v.nonce (s.count v)).Course rest result? := by
  have hreturn : v.answer? ≠ none := by
    rw [hanswer]
    nofun
  cases answer with
  | error e =>
      have hfruit : ¬v.Fruitless := by
        rintro ⟨⟨claimed, hclaimed⟩, -⟩
        rw [hanswer] at hclaimed
        nomatch hclaimed
      obtain ⟨run, hrun, hstops⟩ := conclude_error job remaining v.nonce (s.count v) accepted? e
      rw [hrun] at hrest
      cases hrest
      rw [List.append_nil]
      exact .inl ⟨[v], .ended rfl hmade hreturn hfruit hstops⟩
  | ok claimed =>
      cases accepted? with
      | some accepted =>
          have hfruit : ¬v.Fruitless := by
            rintro ⟨-, hnone⟩
            rw [hnone] at haccepted
            nomatch haccepted
          cases hrest
          rw [List.append_nil]
          exact .inl ⟨[v], .ended rfl hmade hreturn hfruit (.found _ _ _ _)⟩
      | none => exact .inr ⟨⟨⟨claimed, hanswer⟩, haccepted.symm⟩, hrest⟩

/-- A course from a nonce on halts there, or goes on after a visit in vain. -/
theorem halts_or_goes_on
    (h : (job.mineFrom job.header.midstate remaining nonce s).Course actions result?) :
    (∃ visits, job.Halts nonce s visits actions result?) ∨
    ∃ v rest, v.nonce = nonce ∧ v.Made job s.noncesTried ∧ v.Fruitless ∧
      actions = v.course ++ rest ∧ (job.goOn remaining nonce (s.count v)).Course rest result? := by
  rw [mineFrom_eq] at h
  cases h with
  | poll raised h =>
      cases raised with
      | true =>
          cases h
          exact .inl ⟨[], .stopped⟩
      | false =>
          cases h with
          | note h =>
              cases course_follow h with
              | crashed hcourse =>
                  exact .inl ⟨_, .crashed (v := ⟨nonce, _, none⟩) rfl hcourse rfl⟩
              | @answered tried rest answer after result? hcourse htally hrest =>
                  let v : Visit := ⟨nonce, tried, some answer⟩
                  have hrejected : after.rejected = rejections v.actions := by
                    rw [htally.rejected_eq, Nat.zero_add]
                  have haccepted :
                      after.accepted?.isSome = v.actions.any (Action.answers true) := by
                    rw [htally.accepted_eq, Option.isSome_none, Bool.false_or]
                  rw [hrejected] at hrest
                  rcases halts_or_goes_on_of_answer (v := v) hcourse rfl haccepted hrest with
                    hhalts | ⟨hfruit, hgoes⟩
                  · exact .inl hhalts
                  · exact .inr ⟨v, rest, rfl, hcourse, hfruit, rfl, hgoes⟩

/-- A walk through nonces: the visits, what is done in all, and how the run ends. -/
inductive Walk (job : MiningJob) :
    Nat → Word256 → Session → List Visit → List Action → Option SessionRun → Prop
  | halts {remaining : Nat} {nonce : Word256} {s : Session} {visits : List Visit}
      {actions : List Action} {result? : Option SessionRun}
      (h : job.Halts nonce s visits actions result?) :
      Walk job remaining nonce s visits actions result?
  | exhausted {s : Session} {v : Visit} (hmade : v.Made job s.noncesTried)
      (hfruit : v.Fruitless) : Walk job 0 v.nonce s [v] v.course (some (s.count v).exhausted)
  | next {remaining : Nat} {s : Session} {v : Visit} {visits : List Visit} {rest : List Action}
      {result? : Option SessionRun} (hmade : v.Made job s.noncesTried) (hfruit : v.Fruitless)
      (hrest : Walk job remaining (v.nonce + 1) (s.count v) visits rest result?) :
      Walk job (remaining + 1) v.nonce s (v :: visits) (v.course ++ rest) result?

theorem walk_of_course
    (h : (job.mineFrom job.header.midstate remaining nonce s).Course actions result?) :
    ∃ visits, job.Walk remaining nonce s visits actions result? := by
  induction remaining generalizing nonce s actions with
  | zero =>
      rcases halts_or_goes_on h with ⟨visits, hhalts⟩ | ⟨v, rest, rfl, hmade, hfruit, rfl, hrest⟩
      · exact ⟨visits, .halts hhalts⟩
      · cases hrest
        rw [List.append_nil]
        exact ⟨[v], .exhausted hmade hfruit⟩
  | succ remaining ih =>
      rcases halts_or_goes_on h with ⟨visits, hhalts⟩ | ⟨v, rest, rfl, hmade, hfruit, rfl, hrest⟩
      · exact ⟨visits, .halts hhalts⟩
      · obtain ⟨visits, hwalk⟩ := ih hrest
        exact ⟨v :: visits, .next hmade hfruit hwalk⟩

/-! ### What walks do -/

theorem Walk.length_le (h : job.Walk remaining nonce s visits actions result?) :
    visits.length ≤ remaining + 1 := by
  induction h with
  | halts h =>
      cases h with
      | stopped => exact Nat.zero_le _
      | crashed hnonce hmade hcrash => exact Nat.succ_le_succ (Nat.zero_le _)
      | ended hnonce hmade hreturn hfruit hstops => exact Nat.succ_le_succ (Nat.zero_le _)
  | exhausted hmade hfruit => exact Nat.le_refl 1
  | next hmade hfruit hrest ih => exact Nat.succ_le_succ ih

theorem Walk.nonces_eq (h : job.Walk remaining nonce s visits actions result?) {last : Word256}
    (hfit : nonce.toNat + remaining ≤ last.toNat) :
    visits.map (·.nonce.toNat) = List.range' nonce.toNat visits.length := by
  induction h with
  | halts h =>
      cases h with
      | stopped => rfl
      | crashed hnonce hmade hcrash => simp [hnonce]
      | ended hnonce hmade hreturn hfruit hstops => simp [hnonce]
  | exhausted hmade hfruit => rfl
  | @next remaining s v visits rest result? hmade hfruit hrest ih =>
      have hlt : v.nonce.toNat < last.toNat := by omega
      have hnext := Word256.toNat_add_one hlt
      rw [List.map_cons, ih (by omega), hnext, List.length_cons, List.range'_succ]

theorem made_singleton {v w : Visit} (hmade : v.Made job s.noncesTried) {i : Nat}
    (hw : [v][i]? = some w) : w.Made job (s.noncesTried + i) := by
  cases i with
  | zero =>
      cases hw
      exact hmade
  | succ i => nomatch hw

/-- The solver is asked for the nonce of each visit, the calls before it counted. -/
theorem Walk.made (h : job.Walk remaining nonce s visits actions result?) {i : Nat} {v : Visit}
    (hv : visits[i]? = some v) : v.Made job (s.noncesTried + i) := by
  induction h generalizing i with
  | halts h =>
      cases h with
      | stopped => nomatch hv
      | crashed hnonce hmade hcrash => exact made_singleton hmade hv
      | ended hnonce hmade hreturn hfruit hstops => exact made_singleton hmade hv
  | exhausted hmade hfruit => exact made_singleton hmade hv
  | next hmade hfruit hrest ih =>
      cases i with
      | zero =>
          cases hv
          exact hmade
      | succ i =>
          have hlater := ih hv
          rwa [Session.count, Nat.add_assoc, Nat.add_comm 1] at hlater

theorem Walk.handed_eq (h : job.Walk remaining nonce s visits actions result?) :
    handed actions = visits.map (·.nonce) := by
  induction h with
  | halts h =>
      cases h with
      | stopped => rfl
      | crashed hnonce hmade hcrash => exact hmade.handed_eq
      | ended hnonce hmade hreturn hfruit hstops => exact hmade.handed_eq
  | exhausted hmade hfruit => exact hmade.handed_eq
  | next hmade hfruit hrest ih => rw [handed_append, hmade.handed_eq, ih, List.map_cons]; rfl

/-- Nothing follows a look before a visit that shows the flag raised. -/
theorem Walk.course_eq (h : job.Walk remaining nonce s visits actions result?) :
    actions = visits.flatMap Visit.course ∨
      actions = visits.flatMap Visit.course ++ [.looked true] ∧
        ∃ n after, result? = some (.error (.searchCancelled n), after) := by
  induction h with
  | halts h =>
      cases h with
      | stopped => exact .inr ⟨rfl, _, _, rfl⟩
      | crashed hnonce hmade hcrash => exact .inl (by simp)
      | ended hnonce hmade hreturn hfruit hstops => exact .inl (by simp)
  | exhausted hmade hfruit => exact .inl (by simp)
  | next hmade hfruit hrest ih =>
      rcases ih with heq | ⟨heq, hcancelled⟩
      · exact .inl (by rw [heq, List.flatMap_cons])
      · exact .inr ⟨by rw [heq, List.flatMap_cons, List.append_assoc], hcancelled⟩

theorem Walk.crashed_iff (h : job.Walk remaining nonce s visits actions result?) :
    result? = none ↔ ∃ v ∈ visits, v.answer? = none := by
  induction h with
  | halts h =>
      cases h with
      | stopped => simp
      | crashed hnonce hmade hcrash => simp [hcrash]
      | ended hnonce hmade hreturn hfruit hstops => simp [hreturn]
  | exhausted hmade hfruit =>
      obtain ⟨claimed, hanswer⟩ := hfruit.1
      simp [hanswer]
  | next hmade hfruit hrest ih =>
      obtain ⟨claimed, hanswer⟩ := hfruit.1
      rw [ih]
      simp [hanswer]

theorem Walk.exhausted_iff (h : job.Walk remaining nonce s visits actions result?) :
    (∃ n after, result? = some (.error (.noncesExhausted n), after)) ↔
      visits.length = remaining + 1 ∧ ∀ v ∈ visits, v.Fruitless := by
  induction h with
  | halts h =>
      cases h with
      | stopped => simp [Session.cancelled]
      | crashed hnonce hmade hcrash =>
          have hfruit : ∀ v : Visit, v.answer? = none → ¬v.Fruitless := by
            rintro v hv ⟨⟨claimed, hanswer⟩, -⟩
            rw [hv] at hanswer
            contradiction
          simp [hfruit _ hcrash]
      | @ended v run hnonce hmade hreturn hfruit hstops =>
          constructor
          · rintro ⟨n, after, heq⟩
            cases heq
            exact absurd rfl (hstops.not_exhausted n)
          · rintro ⟨-, hall⟩
            exact absurd (hall v (by simp)) hfruit
  | exhausted hmade hfruit => simp [Session.exhausted, hfruit]
  | next hmade hfruit hrest ih =>
      rw [ih]
      simp [hfruit]

theorem Walk.counted (h : job.Walk remaining nonce s visits actions result?) {run : SessionRun}
    (hrun : result? = some run) : run.2.noncesTried = s.noncesTried + visits.length ∧
      run.2.solutionsRejected = s.solutionsRejected + rejections actions ∧ run.2.Tells run.1 := by
  induction h with
  | halts h =>
      cases h with
      | stopped =>
          cases hrun
          exact ⟨rfl, rfl, Session.Stops.cancelled.tells⟩
      | crashed hnonce hmade hcrash => nomatch hrun
      | ended hnonce hmade hreturn hfruit hstops =>
          cases hrun
          obtain ⟨htried, hrejected⟩ := hstops.counters
          refine ⟨htried, ?_, hstops.tells⟩
          rw [hrejected, Visit.rejections_course]
          rfl
  | @exhausted s v hmade hfruit =>
      cases hrun
      refine ⟨rfl, ?_, (s.count v).tells_exhausted⟩
      rw [Visit.rejections_course]
      rfl
  | @next remaining s v visits rest result? hmade hfruit hrest ih =>
      obtain ⟨htried, hrejected, htells⟩ := ih hrun
      have hone : (s.count v).noncesTried = s.noncesTried + 1 := rfl
      have hmore : (s.count v).solutionsRejected = s.solutionsRejected + rejections v.actions := rfl
      refine ⟨?_, ?_, htells⟩
      · rw [htried, hone, List.length_cons]
        omega
      · rw [hrejected, hmore, rejections_append, Visit.rejections_course]
        omega

/-! ## Runs -/

/-- What a run over a range does, whatever the session has done before. -/
structure Passage (job : MiningJob) (range : NonceRange) (s : Session) (visits : List Visit)
    (actions : List Action) (result? : Option SessionRun) : Prop where
  /-- The solver is asked for the nonce of each visit. -/
  made : ∀ {i : Nat} {v : Visit}, visits[i]? = some v → v.Made job (s.noncesTried + i)
  /-- It is asked for no other nonces. -/
  handed_eq : handed actions = visits.map (·.nonce)
  /-- The visits start at the first nonce and leave none out. -/
  nonces_eq : visits.map (·.nonce.toNat) = List.range' range.start.toNat visits.length
  within : ∀ v ∈ visits, range.start.toNat ≤ v.nonce.toNat ∧ v.nonce.toNat ≤ range.last.toNat
  /-- A look before each visit shows the flag lowered; nothing follows one that does not. -/
  course_eq : actions = visits.flatMap Visit.course ∨
    actions = visits.flatMap Visit.course ++ [.looked true] ∧
      ∃ n after, result? = some (.error (.searchCancelled n), after)
  /-- The run gives a result unless the solver crashes. -/
  crashed_iff : result? = none ↔ ∃ v ∈ visits, v.answer? = none
  exhausted_iff : (∃ n after, result? = some (.error (.noncesExhausted n), after)) ↔
    range.isEmpty = true ∨ ∀ nonce : Word256, range.start.toNat ≤ nonce.toNat →
      nonce.toNat ≤ range.last.toNat → ∃ v ∈ visits, v.nonce = nonce ∧ v.Fruitless
  counted : ∀ {result : Except Error Mined} {after : Session}, result? = some (result, after) →
    after.noncesTried = s.noncesTried + (handed actions).length ∧
      after.solutionsRejected = s.solutionsRejected + rejections actions
  tells : ∀ {result : Except Error Mined} {after : Session}, result? = some (result, after) →
    after.Tells result

section

variable {range : NonceRange} (h : job.Walk range.width range.start s visits actions result?)
  (hordered : range.start.toNat ≤ range.last.toNat)

include h hordered

theorem Walk.nonces_eq_of_range :
    visits.map (·.nonce.toNat) = List.range' range.start.toNat visits.length := by
  have hfit : range.start.toNat + range.width ≤ range.last.toNat := by
    unfold NonceRange.width
    omega
  exact h.nonces_eq hfit

theorem Walk.exists_visit_iff (nonce : Word256) : (∃ v ∈ visits, v.nonce = nonce) ↔
    range.start.toNat ≤ nonce.toNat ∧ nonce.toNat < range.start.toNat + visits.length := by
  rw [← List.mem_range'_1, ← h.nonces_eq_of_range hordered, List.mem_map]
  simp only [BitVec.toNat_inj]

theorem Walk.within {v : Visit} (hv : v ∈ visits) :
    range.start.toNat ≤ v.nonce.toNat ∧ v.nonce.toNat ≤ range.last.toNat := by
  have hbounds := (h.exists_visit_iff hordered v.nonce).mp ⟨v, hv, rfl⟩
  have hle := h.length_le
  unfold NonceRange.width at hle
  omega

/-- Visiting as many nonces as a range has is visiting each of them. -/
theorem Walk.complete_iff : (visits.length = range.width + 1 ∧ ∀ v ∈ visits, v.Fruitless) ↔
    ∀ nonce : Word256, range.start.toNat ≤ nonce.toNat → nonce.toNat ≤ range.last.toNat →
      ∃ v ∈ visits, v.nonce = nonce ∧ v.Fruitless := by
  have hle := h.length_le
  unfold NonceRange.width at hle ⊢
  constructor
  · rintro ⟨hlength, hfruit⟩ nonce hfirst hlast
    obtain ⟨v, hv, hnonce⟩ := (h.exists_visit_iff hordered nonce).mpr ⟨hfirst, by omega⟩
    exact ⟨v, hv, hnonce, hfruit v hv⟩
  · intro hall
    constructor
    · obtain ⟨v, hv, hnonce, -⟩ := hall range.last hordered (Nat.le_refl _)
      have hbounds := (h.exists_visit_iff hordered range.last).mp ⟨v, hv, hnonce⟩
      omega
    · intro v hv
      obtain ⟨hfirst, hlast⟩ := h.within hordered hv
      obtain ⟨w, hw, hnonce, hfruit⟩ := hall v.nonce hfirst hlast
      -- no nonce is visited twice
      have hnodup : (visits.map (·.nonce.toNat)).Nodup := by
        rw [h.nonces_eq_of_range hordered]
        exact List.nodup_range'
      have heq : w = v := List.inj_on_of_nodup_map hnodup hw hv (congrArg BitVec.toNat hnonce)
      rwa [← heq]

end

theorem passage_of_course {range : NonceRange} (h : (job.run s range).Course actions result?) :
    ∃ visits, job.Passage range s visits actions result? := by
  unfold run at h
  cases hempty : range.isEmpty with
  | true =>
      rw [hempty] at h
      cases h
      refine ⟨[], ⟨nofun, rfl, rfl, nofun, .inl rfl, by simp, ?_, ?_, ?_⟩⟩
      · simp [hempty, Session.exhausted]
      · rintro result after ⟨⟩
        exact ⟨rfl, rfl⟩
      · rintro result after ⟨⟩
        exact s.tells_exhausted
  | false =>
      have hordered : range.start.toNat ≤ range.last.toNat := by
        simpa [NonceRange.isEmpty] using hempty
      rw [hempty] at h
      obtain ⟨visits, hwalk⟩ := walk_of_course h
      refine ⟨visits, ⟨hwalk.made, hwalk.handed_eq, hwalk.nonces_eq_of_range hordered,
        fun v hv => hwalk.within hordered hv, hwalk.course_eq, hwalk.crashed_iff, ?_, ?_, ?_⟩⟩
      · rw [hwalk.exhausted_iff, hwalk.complete_iff hordered]
        simp [hempty]
      · intro result after hrun
        obtain ⟨htried, hrejected, -⟩ := hwalk.counted hrun
        rw [hwalk.handed_eq, List.length_map]
        exact ⟨htried, hrejected⟩
      · intro result after hrun
        exact (hwalk.counted hrun).2.2

end MiningJob

/-- The runs of a session one after the other, each with a header and a range of its own: the
session before, what they do in all, and the session after. -/
inductive Session.Runs (solver : Solver) (powLimit : Word256) :
    Session → List Action → Session → Prop
  | none (s : Session) : Runs solver powLimit s [] s
  | next {s next last : Session} {actions more : List Action} {result : Except Error Mined}
      (header : Header) (range : NonceRange)
      (h : (MiningJob.run ⟨solver, header, powLimit⟩ s range).Course actions (some (result, next)))
      (hmore : Runs solver powLimit next more last) :
      Runs solver powLimit s (actions ++ more) last

theorem Session.Runs.counted {solver : Solver} {powLimit : Word256} {first last : Session}
    {actions : List Action} (h : Runs solver powLimit first actions last) :
    last.noncesTried = first.noncesTried + (handed actions).length ∧
      last.solutionsRejected = first.solutionsRejected + rejections actions := by
  induction h with
  | none s => exact ⟨rfl, rfl⟩
  | next header range h hmore ih =>
      obtain ⟨visits, hpassage⟩ := MiningJob.passage_of_course h
      obtain ⟨htried, hrejected⟩ := hpassage.counted rfl
      rw [handed_append, List.length_append, rejections_append]
      omega

/-- Whatever the solver does and the flag shows, every run of a session comes to an end and visits
the nonces of its range as it should, and the counters add up over all runs. -/
theorem Session.passes (solver : Solver) (powLimit : Word256) :
    (∀ (header : Header) (range : NonceRange) (s : Session),
      (∀ history : Nat → Bool, ∃ actions result?,
        (MiningJob.run ⟨solver, header, powLimit⟩ s range).Course actions result? ∧
        sights actions = (List.range (sights actions).length).map history) ∧
      ∀ (flag : CancelFlag) (flags : FlagStore), ∃ actions,
        (MiningJob.run ⟨solver, header, powLimit⟩ s range).Course actions
          ((MiningJob.run ⟨solver, header, powLimit⟩ s range).runAlone flag flags).1) ∧
    (∀ (header : Header) (range : NonceRange) (s : Session) (actions : List Action)
      (result? : Option SessionRun),
      (MiningJob.run ⟨solver, header, powLimit⟩ s range).Course actions result? →
        ∃ visits, MiningJob.Passage ⟨solver, header, powLimit⟩ range s visits actions result?) ∧
    ∀ (first last : Session) (actions : List Action), Runs solver powLimit first actions last →
      last.noncesTried = first.noncesTried + (handed actions).length ∧
        last.solutionsRejected = first.solutionsRejected + rejections actions := by
  refine ⟨fun header range s => ⟨?_, ?_⟩, ?_, ?_⟩
  · exact fun history => Work.exists_course _ history
  · exact fun flag flags => Work.course_runAlone flag _ flags
  · intro header range s actions result? h
    exact MiningJob.passage_of_course h
  · intro first last actions h
    exact h.counted

/-- A job whose solver offers one solution for each nonce, which is refused. -/
def refusedJob : MiningJob where
  solver := .scripted "refused" [[1]] [] ⟨[[1]], false, .answer⟩
  header := default
  powLimit := 0

def refusedCourse (nonce : Word256) : List Action :=
  [.looked false, .noted (.handed nonce), .noted (.answered [1] false)]

/-- The range ends at the greatest word, and the run does not go round. -/
theorem course_refusedJob (s : Session) :
    (refusedJob.run s ⟨BitVec.allOnes 256 - 1, BitVec.allOnes 256⟩).Course
      (refusedCourse (BitVec.allOnes 256 - 1) ++ refusedCourse (BitVec.allOnes 256))
      (some (.error (.noncesExhausted (s.noncesTried + 2)),
        ⟨.exhausted, s.noncesTried + 2, s.solutionsRejected + 2⟩)) := by
  have hrun : refusedJob.run s ⟨BitVec.allOnes 256 - 1, BitVec.allOnes 256⟩ =
      refusedJob.mineFrom refusedJob.header.midstate 1 (BitVec.allOnes 256 - 1) s := rfl
  rw [hrun, MiningJob.mineFrom]
  refine .poll false (.note (.note ?_))
  show (refusedJob.mineFrom _ 0 _ _).Course _ _
  rw [MiningJob.mineFrom]
  exact .poll false (.note (.note (.done _)))

theorem Session.passes_refusedJob :
    let range : NonceRange := ⟨BitVec.allOnes 256 - 1, BitVec.allOnes 256⟩
    let actions := refusedCourse range.start ++ refusedCourse range.last
    (∃ visits, refusedJob.Passage range default visits actions
      (some (.error (.noncesExhausted 2), ⟨.exhausted, 2, 2⟩))) ∧
    ∃ last : Session, Runs refusedJob.solver refusedJob.powLimit default
      (actions ++ (actions ++ [])) last ∧
      last.noncesTried = 0 + (handed (actions ++ (actions ++ []))).length ∧
      last.solutionsRejected = 0 + rejections (actions ++ (actions ++ [])) := by
  intro range actions
  obtain ⟨-, hpassage, hcounted⟩ := passes refusedJob.solver refusedJob.powLimit
  have hfirst := course_refusedJob default
  have hruns := Runs.next refusedJob.header range hfirst
    (.next refusedJob.header range (course_refusedJob _) (.none _))
  exact ⟨hpassage refusedJob.header range default actions _ hfirst, _, hruns,
    hcounted default _ _ hruns⟩

end BlockProduction

import BlockProduction.Proofs.Mining.Flags
import BlockProduction.Proofs.Mining.Partition
import BlockProduction.Proofs.Mining.Soundness
import BlockProduction.Proofs.Mining.Visits

/-!
# Searches agree with sessions

A solver that offers the same solutions for a nonce whenever it is asked, and
that takes the first acceptance for an answer, is searched in the same way by
one session and by any number of workers in any order: there is a header exactly
when some nonce of the range has a solution.

Whatever a solver does, a search changes no flag but the one that its workers
share.
-/

namespace BlockProduction

/-! ## Solvers with candidates -/

/-- The attempt offers these candidates in order until one is accepted.  It may look at the flag
but does not heed it. -/
inductive Attempt.Offers : List Bytes → Attempt → Prop
  | finish (claimed : Bool) : Offers [] (.finish (.ok claimed))
  | offer {solution : Bytes} {rest : List Bytes} {next : Bool → Attempt}
      (htaken : Offers [] (next true)) (hrefused : Offers rest (next false)) :
      Offers (solution :: rest) (.offer solution next)
  | poll {candidates : List Bytes} {next : Bool → Attempt}
      (h : ∀ raised, Offers candidates (next raised)) : Offers candidates (.poll next)

/-- A script that stops at an acceptance and reports it offers its list. -/
theorem Script.offers_attempt (offers : List Bytes) :
    Attempt.Offers offers (Script.attempt ⟨offers, false, .answer⟩) := by
  have hplay : ∀ accepted, Attempt.Offers offers (play false .answer offers accepted) := by
    induction offers with
    | nil => exact fun accepted => .finish accepted
    | cons solution rest ih => exact fun accepted => .offer (.finish true) (ih _)
  exact hplay false

namespace Work

variable {α : Type}

/-- What work ends with while the flag stays lowered, if it does not raise the flag itself. -/
inductive Settles : Work α → α → Prop
  | done (result : α) : Settles (.done result) result
  | poll {next : Bool → Work α} {result : α} (h : Settles (next false) result) :
      Settles (.poll next) result
  | note {event : MiningEvent} {next : Work α} {result : α} (h : Settles next result) :
      Settles (.note event next) result

theorem Settles.runAlone {w : Work α} {result : α} (h : w.Settles result) {flag : CancelFlag}
    {store : FlagStore} (hflag : store.isRaised flag = false) :
    w.runAlone flag store = (some result, store) := by
  induction h with
  | done result => rfl
  | poll h ih => rwa [Work.runAlone, hflag]
  | note h ih => exact ih

end Work

/-- The end of a search through a number of nonces: with a header exactly when there is a
solution, and otherwise when all of them are tried. -/
inductive Decided (solvable : Prop) (count : Nat) : Except Error Mined → Prop
  | found (mined : Mined) (h : solvable) : Decided solvable count (.ok mined)
  | exhausted (h : ¬solvable) : Decided solvable count (.error (.noncesExhausted count))

namespace Decided

variable {solvable : Prop} {count : Nat} {result : Except Error Mined}

theorem congr {other : Prop} (h : Decided solvable count result) (hiff : solvable ↔ other) :
    Decided other count result := by
  rwa [← propext hiff]

theorem ok_iff (h : Decided solvable count result) : (∃ mined, result = .ok mined) ↔ solvable := by
  cases h with
  | found mined h => simp [h]
  | exhausted h => simp [h]

theorem eq_exhausted (h : Decided solvable count result) (hnone : ¬solvable) :
    result = .error (.noncesExhausted count) := by
  cases h with
  | found mined h => exact absurd h hnone
  | exhausted h => rfl

end Decided

namespace MiningJob

variable {job : MiningJob} {candidates : Word256 → List Bytes}

/-- The solver offers these candidates for each nonce, whenever it is asked. -/
def Offers (job : MiningJob) (candidates : Word256 → List Bytes) : Prop :=
  ∀ (calls : Nat) (nonce : Word256),
    (job.solver.attempt calls (.ofMidstate job.header.midstate nonce)).Offers (candidates nonce)

/-- A candidate for the nonce verifies, and the header with both meets the target. -/
def Solves (job : MiningJob) (candidates : Word256 → List Bytes) (nonce : Word256) : Prop :=
  ∃ solution ∈ candidates nonce,
    job.solver.verify (.ofMidstate job.header.midstate nonce) solution = true ∧
    CompactTarget.meets (Header.hash { job.header with nonce := .ofWord nonce, solution })
      job.header.bits job.powLimit = true

def Solvable (job : MiningJob) (candidates : Word256 → List Bytes) (range : NonceRange) : Prop :=
  ∃ nonce : Word256, range.Holds nonce.toNat ∧ job.Solves candidates nonce

/-! ### Sessions -/

theorem accepts_iff {nonce : Word256} {solution : Bytes} : job.accepts nonce solution = true ↔
    job.solver.verify (.ofMidstate job.header.midstate nonce) solution = true ∧
    CompactTarget.meets (Header.hash { job.header with nonce := .ofWord nonce, solution })
      job.header.bits job.powLimit = true := by
  rw [accepts, Option.isSome_iff_exists, ← NonceState.headerHash_ofMidstate]
  constructor
  · rintro ⟨hash, haccept⟩
    obtain ⟨hverified, hmeets, rfl⟩ := accept?_eq_some_iff.mp haccept
    exact ⟨hverified, hmeets⟩
  · rintro ⟨hverified, hmeets⟩
    exact ⟨_, accept?_eq_some_iff.mpr ⟨hverified, hmeets, rfl⟩⟩

theorem solves_iff {nonce : Word256} :
    job.Solves candidates nonce ↔ (candidates nonce).any (job.accepts nonce) = true := by
  simp only [Solves, List.any_eq_true, accepts_iff]

/-- An attempt with candidates comes back, and the tally knows whether one was accepted. -/
theorem settles_follow {α : Type} {nonce : Word256} {k : Except Error Bool → Tally → Work α}
    {offered : List Bytes} {attempt : Attempt} (h : attempt.Offers offered) (tally : Tally) :
    ∃ claimed after, Option.isSome (Tally.accepted? after) =
        (tally.accepted?.isSome || offered.any (job.accepts nonce)) ∧
      ∀ result, (k (.ok claimed) after).Settles result →
        (job.follow (.ofMidstate job.header.midstate nonce) k attempt tally).Settles result := by
  induction h generalizing tally with
  | finish claimed => exact ⟨claimed, tally, by simp, fun result h => h⟩
  | @offer solution rest next htaken hrefused ihtaken ihrefused =>
      obtain ⟨told, htold, hfollow⟩ := job.follow_offer nonce k solution next tally
      have htold := htold.accepted_eq
      rw [hfollow, List.any_cons]
      cases haccepts : job.accepts nonce solution with
      | true =>
          obtain ⟨claimed, after, hafter, hsettles⟩ := ihtaken told
          rw [haccepts] at htold
          refine ⟨claimed, after, ?_, fun result h => .note (hsettles result h)⟩
          rw [hafter, htold]
          simp [Action.answers]
      | false =>
          obtain ⟨claimed, after, hafter, hsettles⟩ := ihrefused told
          rw [haccepts] at htold
          refine ⟨claimed, after, ?_, fun result h => .note (hsettles result h)⟩
          rw [hafter, htold]
          simp [Action.answers]
  | poll h ih =>
      obtain ⟨claimed, after, hafter, hsettles⟩ := ih false tally
      exact ⟨claimed, after, hafter, fun result h => .poll (hsettles result h)⟩

/-- A nonce with a solution ends the run; after one without, the run goes on. -/
theorem settles_or_goes_on (hoffers : job.Offers candidates) (remaining : Nat) (nonce : Word256)
    (s : Session) :
    (job.Solves candidates nonce ∧ ∃ mined after,
      (job.mineFrom job.header.midstate remaining nonce s).Settles (.ok mined, after)) ∨
    ¬job.Solves candidates nonce ∧ ∃ next : Session, next.noncesTried = s.noncesTried + 1 ∧
      ∀ run, (job.goOn remaining nonce next).Settles run →
        (job.mineFrom job.header.midstate remaining nonce s).Settles run := by
  rw [mineFrom_eq]
  obtain ⟨claimed, ⟨accepted?, rejected⟩, htally, hsettles⟩ :=
    settles_follow (k := _) (hoffers s.noncesTried nonce) ⟨none, 0⟩
  rw [Option.isSome_none, Bool.false_or] at htally
  rw [solves_iff, ← htally]
  cases accepted? with
  | some accepted =>
      exact .inl ⟨rfl, _, _, .poll (.note (hsettles (Except.ok _, _) (.done _)))⟩
  | none =>
      let next : Session := ⟨s.state, s.noncesTried + 1, s.solutionsRejected + rejected⟩
      exact .inr ⟨Bool.false_ne_true, next, rfl, fun run h => .poll (.note (hsettles run h))⟩

/-- The nonces from one to the last of a range are this one and those from the next one on. -/
theorem solvable_iff_of_lt {nonce last : Word256} (h : nonce.toNat < last.toNat) :
    job.Solvable candidates ⟨nonce, last⟩ ↔
      job.Solves candidates nonce ∨ job.Solvable candidates ⟨nonce + 1, last⟩ := by
  have hnext := Word256.toNat_add_one h
  constructor
  · rintro ⟨other, ⟨hfirst, hend⟩, hsolves⟩
    by_cases heq : nonce.toNat = other.toNat
    · rw [BitVec.eq_of_toNat_eq heq]
      exact .inl hsolves
    · refine .inr ⟨other, ⟨?_, hend⟩, hsolves⟩
      dsimp only at hfirst ⊢
      omega
  · rintro (hsolves | ⟨other, ⟨hfirst, hend⟩, hsolves⟩)
    · exact ⟨nonce, ⟨Nat.le_refl _, Nat.le_of_lt h⟩, hsolves⟩
    · refine ⟨other, ⟨?_, hend⟩, hsolves⟩
      dsimp only at hfirst ⊢
      omega

theorem solvable_single_iff {nonce : Word256} :
    job.Solvable candidates ⟨nonce, nonce⟩ ↔ job.Solves candidates nonce := by
  constructor
  · rintro ⟨other, ⟨hfirst, hend⟩, hsolves⟩
    obtain rfl : nonce = other := BitVec.eq_of_toNat_eq (Nat.le_antisymm hfirst hend)
    exact hsolves
  · exact fun hsolves => ⟨nonce, ⟨Nat.le_refl _, Nat.le_refl _⟩, hsolves⟩

theorem decided_mineFrom (hoffers : job.Offers candidates) {last : Word256} (remaining : Nat)
    (nonce : Word256) (s : Session) (hlast : nonce.toNat + remaining = last.toNat) :
    ∃ result after, (job.mineFrom job.header.midstate remaining nonce s).Settles (result, after) ∧
      Decided (job.Solvable candidates ⟨nonce, last⟩) (s.noncesTried + (remaining + 1)) result := by
  induction remaining generalizing nonce s with
  | zero =>
      obtain rfl : nonce = last := BitVec.eq_of_toNat_eq hlast
      rw [solvable_single_iff]
      rcases settles_or_goes_on hoffers 0 nonce s with
        ⟨hsolves, mined, after, hsettles⟩ | ⟨hnone, next, htried, hsettles⟩
      · exact ⟨_, _, hsettles, .found mined hsolves⟩
      · refine ⟨_, _, hsettles _ (.done _), ?_⟩
        rw [← htried]
        exact .exhausted hnone
  | succ remaining ih =>
      rw [solvable_iff_of_lt (by omega)]
      rcases settles_or_goes_on hoffers (remaining + 1) nonce s with
        ⟨hsolves, mined, after, hsettles⟩ | ⟨hnone, next, htried, hsettles⟩
      · exact ⟨_, _, hsettles, .found mined (.inl hsolves)⟩
      · have hlt : nonce.toNat < last.toNat := by omega
        have hnonce := Word256.toNat_add_one hlt
        obtain ⟨result, after, hrest, hdecided⟩ := ih (nonce + 1) next (by omega)
        refine ⟨result, after, hsettles _ hrest, ?_⟩
        rw [or_iff_right hnone]
        rw [htried, Nat.add_assoc, Nat.add_comm 1] at hdecided
        exact hdecided

theorem decided_run (hoffers : job.Offers candidates) (s : Session) (range : NonceRange) :
    ∃ result after, (job.run s range).Settles (result, after) ∧
      Decided (job.Solvable candidates range) (s.noncesTried + range.size) result := by
  unfold run
  cases hempty : range.isEmpty with
  | true =>
      have hlt : range.last.toNat < range.start.toNat := by simpa [NonceRange.isEmpty] using hempty
      have hnone : ¬job.Solvable candidates range := by
        rintro ⟨nonce, ⟨hfirst, hend⟩, -⟩
        omega
      refine ⟨_, _, .done _, ?_⟩
      rw [NonceRange.size, Nat.sub_eq_zero_of_le hlt]
      exact .exhausted hnone
  | false =>
      have hordered : range.start.toNat ≤ range.last.toNat := by
        simpa [NonceRange.isEmpty] using hempty
      have hsize : range.size = range.width + 1 := by
        unfold NonceRange.size NonceRange.width
        omega
      rw [hsize]
      apply decided_mineFrom hoffers
      unfold NonceRange.width
      omega

end MiningJob

/-! ## Workers -/

namespace Search

/-- The result of a worker as long as the shared flag stays lowered.  The worker raises it only
when it is about to end with a header. -/
inductive Due : Work (Except Error Mined) → Except Error Mined → Prop
  | done (result : Except Error Mined) : Due (.done result) result
  | won (mined : Mined) : Due (.raise (.done (.ok mined))) (.ok mined)
  | poll {next : Bool → Work (Except Error Mined)} {result : Except Error Mined}
      (h : Due (next false) result) : Due (.poll next) result
  | note {event : MiningEvent} {next : Work (Except Error Mined)} {result : Except Error Mined}
      (h : Due next result) : Due (.note event next) result

variable {α : Type} {work : Work (Except Error Mined)} {result : Except Error Mined}
  {results : List (Except Error Mined)} {workers : List (Work (Except Error Mined))}
  {shared : CancelFlag} {flags : FlagStore}

theorem due_bind {w : Work α} {first : α} (h : w.Settles first)
    {k : α → Work (Except Error Mined)} (hdue : Due (k first) result) :
    Due (w.bind k) result := by
  induction h with
  | done first => exact hdue
  | poll h ih => exact .poll (ih hdue)
  | note h ih => exact .note (ih hdue)

/-- A step while the flag is lowered leaves it so, or ends with a header. -/
theorem Due.step (h : Due work result) (hflag : flags.isRaised shared = false) :
    ((work.step shared flags).1 = flags ∧ Due (work.step shared flags).2 result) ∨
      ∃ mined, result = .ok mined ∧ (work.step shared flags).2 = .done (.ok mined) := by
  cases h with
  | done result => exact .inl ⟨rfl, .done result⟩
  | won mined => exact .inr ⟨mined, rfl, rfl⟩
  | poll h =>
      refine .inl ⟨rfl, ?_⟩
      rwa [Work.step, hflag]
  | note h => exact .inl ⟨rfl, h⟩

theorem Due.eq_done (h : Due work result) (hover : work.isOver = true) : work = .done result := by
  cases h with
  | done result => rfl
  | won mined => nomatch hover
  | poll h => nomatch hover
  | note h => nomatch hover

/-- Nobody has won and all results are due, or somebody has won with a result that was due. -/
inductive Awaits (results : List (Except Error Mined)) (shared : CancelFlag) (flags : FlagStore)
    (workers : List (Work (Except Error Mined))) : Prop
  | due (hflag : flags.isRaised shared = false) (hdue : List.Forall₂ Due workers results)
  | won {mined : Mined} (hwinner : .done (.ok mined) ∈ workers) (hresult : .ok mined ∈ results)

/-- A worker that is due can be replaced by what is due with the same result. -/
theorem due_set (h : List.Forall₂ Due workers results) {i : Nat} (hwork : workers[i]? = some work) :
    ∃ result ∈ results, Due work result ∧
      ∀ next, Due next result → List.Forall₂ Due (workers.set i next) results := by
  induction h generalizing i with
  | nil => nomatch hwork
  | @cons first result rest results hfirst hrest ih =>
      cases i with
      | zero =>
          cases hwork
          exact ⟨result, List.mem_cons_self, hfirst, fun next hnext => .cons hnext hrest⟩
      | succ i =>
          obtain ⟨later, hmem, hdue, hset⟩ := ih hwork
          exact ⟨later, List.mem_cons_of_mem _ hmem, hdue,
            fun next hnext => .cons hfirst (hset next hnext)⟩

theorem done_mem_set_step (h : .done result ∈ workers) {i : Nat} (hwork : workers[i]? = some work) :
    .done result ∈ workers.set i (work.step shared flags).2 := by
  obtain ⟨j, hj⟩ := List.getElem?_of_mem h
  by_cases heq : i = j
  · subst heq
    rw [hwork, Option.some.injEq] at hj
    subst hj
    exact List.mem_set (List.getElem?_eq_some_iff.mp hwork).1 _
  · exact List.mem_of_getElem? (by rwa [List.getElem?_set_ne heq])

theorem done_mem_stepAll (h : .done result ∈ workers) :
    .done result ∈ (stepAll shared flags workers).2 := by
  induction workers generalizing flags with
  | nil => nomatch h
  | cons first rest ih =>
      rcases List.mem_cons.mp h with rfl | hrest
      · exact List.mem_cons_self
      · exact List.mem_cons_of_mem _ (ih hrest)

theorem Awaits.set_step (h : Awaits results shared flags workers) {i : Nat}
    (hwork : workers[i]? = some work) :
    Awaits results shared (work.step shared flags).1 (workers.set i (work.step shared flags).2) := by
  cases h with
  | due hflag hdue =>
      obtain ⟨result, hresult, hwill, hset⟩ := due_set hdue hwork
      rcases hwill.step hflag with ⟨hflags, hnext⟩ | ⟨mined, rfl, hdone⟩
      · rw [hflags]
        exact .due hflag (hset _ hnext)
      · rw [hdone]
        exact .won (List.mem_set (List.getElem?_eq_some_iff.mp hwork).1 _) hresult
  | won hwinner hresult => exact .won (done_mem_set_step hwinner hwork) hresult

theorem stepAll_cons (shared : CancelFlag) (flags : FlagStore) (work : Work (Except Error Mined))
    (rest : List (Work (Except Error Mined))) : stepAll shared flags (work :: rest) =
      ((stepAll shared (work.step shared flags).1 rest).1,
        (work.step shared flags).2 :: (stepAll shared (work.step shared flags).1 rest).2) := rfl

theorem awaits_stepAll_of_due (hflag : flags.isRaised shared = false)
    (hdue : List.Forall₂ Due workers results) :
    Awaits results shared (stepAll shared flags workers).1 (stepAll shared flags workers).2 := by
  induction hdue generalizing flags with
  | nil => exact .due hflag .nil
  | cons hfirst hrest ih =>
      rw [stepAll_cons]
      rcases hfirst.step hflag with ⟨hflags, hnext⟩ | ⟨mined, rfl, hdone⟩
      · rw [hflags]
        cases ih hflag with
        | due hlowered hrest => exact .due hlowered (.cons hnext hrest)
        | won hwinner hresult =>
            -- others may be cut short from now on, which costs at most further winners
            exact .won (List.mem_cons_of_mem _ hwinner) (List.mem_cons_of_mem _ hresult)
      · rw [hdone]
        exact .won List.mem_cons_self List.mem_cons_self

theorem Awaits.stepAll (h : Awaits results shared flags workers) :
    Awaits results shared (stepAll shared flags workers).1 (stepAll shared flags workers).2 := by
  cases h with
  | due hflag hdue => exact awaits_stepAll_of_due hflag hdue
  | won hwinner hresult => exact .won (done_mem_stepAll hwinner) hresult

/-! ### Whole searches -/

variable {s : Search}

/-- The results that a search can come to while no flag is raised from outside. -/
def Pending (s : Search) (results : List (Except Error Mined)) : Prop :=
  Awaits results s.shared s.flags s.workers

theorem Pending.turn (h : s.Pending results) {t : Turn} (ht : t.Spares s.shared) :
    (s.turn t).Pending results := by
  cases t with
  | worker i =>
      rw [Search.turn, Search.step]
      cases hwork : s.workers[i]? with
      | none => exact h
      | some work => exact Awaits.set_step h hwork
  | raise flag =>
      cases h with
      | due hflag hdue => exact .due ((FlagStore.isRaised_set ht.1 ht.2 _ _).trans hflag) hdue
      | won hwinner hresult => exact .won hwinner hresult
  | reset flag =>
      cases h with
      | due hflag hdue => exact .due ((FlagStore.isRaised_set ht.1 ht.2 _ _).trans hflag) hdue
      | won hwinner hresult => exact .won hwinner hresult

theorem Pending.finish (h : s.Pending results) : s.finish.Pending results := by
  fun_induction Search.finish s with
  | case1 s hrunning ih => exact ih (Awaits.stepAll h)
  | case2 s hover => exact h

theorem Pending.run (h : s.Pending results) {turns : List Turn}
    (hturns : ∀ t ∈ turns, t.Spares s.shared) : (s.run turns).Pending results := by
  unfold Search.run
  apply Pending.finish
  induction turns generalizing s with
  | nil => exact h
  | cons t turns ih =>
      apply ih (h.turn (hturns t List.mem_cons_self))
      intro later hlater
      rw [shared_turn]
      exact hturns later (List.mem_cons_of_mem t hlater)

theorem isRunning_finish (s : Search) : s.finish.isRunning = false := by
  fun_induction Search.finish s with
  | case1 s hrunning ih => exact ih
  | case2 s hover => simpa using hover

theorem merge_of_ok_mem {mined : Mined} (h : .ok mined ∈ results) :
    ∃ found, merge results = .ok found := by
  have hsome : (results.findSome? solution?).isSome = true := by
    rw [List.findSome?_isSome_iff]
    exact ⟨_, h, rfl⟩
  obtain ⟨winner, hwinner⟩ := Option.isSome_iff_exists.mp hsome
  rw [merge, hwinner]
  exact ⟨_, rfl⟩

theorem merge_exhausted (counts : List Nat) :
    merge (counts.map fun count => .error (.noncesExhausted count)) =
      .error (.noncesExhausted (total counts)) := by
  have hfound : (counts.map fun count => Except.error (.noncesExhausted count)).findSome?
      solution? = none := by
    simp [List.findSome?_eq_none_iff, solution?]
  have hfailed : (counts.map fun count => Except.error (.noncesExhausted count)).findSome?
      failure? = none := by
    simp [List.findSome?_eq_none_iff, failure?]
  rw [merge, hfound, hfailed]
  simp [isExhausted, Function.comp_def, noncesOf]

section

variable {P : NonceRange → Prop} {parts : List NonceRange}
  (h : List.Forall₂ (fun part result => Decided (P part) part.size result) parts results)

include h

theorem ok_mem_of_decided (hsome : ∃ part ∈ parts, P part) : ∃ mined, .ok mined ∈ results := by
  induction h with
  | nil => simp at hsome
  | @cons part result parts results hfirst hrest ih =>
      by_cases hpart : P part
      · obtain ⟨mined, rfl⟩ := hfirst.ok_iff.mpr hpart
        exact ⟨mined, List.mem_cons_self⟩
      · obtain ⟨mined, hmined⟩ := ih (by simpa [hpart] using hsome)
        exact ⟨mined, List.mem_cons_of_mem _ hmined⟩

theorem eq_exhausted_of_decided (hnone : ¬∃ part ∈ parts, P part) :
    results = (parts.map NonceRange.size).map fun count => .error (.noncesExhausted count) := by
  induction h with
  | nil => rfl
  | cons hfirst hrest ih =>
      simp only [List.mem_cons, exists_eq_or_imp, not_or] at hnone
      rw [hfirst.eq_exhausted hnone.1, ih hnone.2]
      rfl

theorem decided_merge :
    Decided (∃ part ∈ parts, P part) (total (parts.map NonceRange.size)) (merge results) := by
  by_cases hsome : ∃ part ∈ parts, P part
  · obtain ⟨mined, hmined⟩ := ok_mem_of_decided h hsome
    obtain ⟨found, hfound⟩ := merge_of_ok_mem hmined
    rw [hfound]
    exact .found found hsome
  · rw [eq_exhausted_of_decided h hsome, merge_exhausted]
    exact .exhausted hsome

end

theorem results_of_due (hdue : List.Forall₂ Due workers results)
    (hover : ∀ work ∈ workers, work.isOver = true) : workers.filterMap result? = results := by
  induction hdue with
  | nil => rfl
  | @cons work result workers results hfirst hrest ih =>
      obtain rfl := hfirst.eq_done (hover _ List.mem_cons_self)
      have hresult : result? (.done result) = some result := rfl
      have hothers : ∀ work ∈ workers, work.isOver = true :=
        fun work hwork => hover work (List.mem_cons_of_mem _ hwork)
      rw [List.filterMap_cons_some hresult, ih hothers]

/-- A search that is over has decided what its results decide: they are all in, or one of them is
that of a winner. -/
theorem Pending.decided {solvable : Prop} {count : Nat} (h : s.Pending results)
    (hover : s.isRunning = false) (hdecided : Decided solvable count (merge results)) :
    Decided solvable count s.outcome := by
  cases h with
  | due hflag hdue =>
      have hall : ∀ work ∈ s.workers, work.isOver = true := by
        simpa [isRunning] using hover
      rwa [outcome, Search.results, results_of_due hdue hall]
  | @won mined hwinner hresult =>
      have hin : .ok mined ∈ s.results := List.mem_filterMap.mpr ⟨_, hwinner, rfl⟩
      obtain ⟨found, hfound⟩ := merge_of_ok_mem hin
      rw [outcome, hfound]
      exact .found found (hdecided.ok_iff.mp (merge_of_ok_mem hresult))

end Search

namespace MiningJob

variable {job : MiningJob} {candidates : Word256 → List Bytes}

theorem decided_worker (hoffers : job.Offers candidates) (part : NonceRange) :
    ∃ result, Search.Due (job.worker part) result ∧
      Decided (job.Solvable candidates part) part.size result := by
  obtain ⟨result, after, hsettles, hdecided⟩ := decided_run hoffers default part
  have hfresh : (default : Session).noncesTried = 0 := rfl
  rw [hfresh, Nat.zero_add] at hdecided
  refine ⟨result, Search.due_bind hsettles ?_, hdecided⟩
  cases result with
  | ok mined => exact .won mined
  | error e => exact .done _

theorem decided_workers (hoffers : job.Offers candidates) (parts : List NonceRange) :
    ∃ results, List.Forall₂ Search.Due (parts.map job.worker) results ∧
      List.Forall₂ (fun part result => Decided (job.Solvable candidates part) part.size result)
        parts results := by
  induction parts with
  | nil => exact ⟨[], .nil, .nil⟩
  | cons part parts ih =>
      obtain ⟨results, hdue, hdecided⟩ := ih
      obtain ⟨result, hfirst, hpart⟩ := decided_worker hoffers part
      exact ⟨result :: results, .cons hfirst hdue, .cons hpart hdecided⟩

theorem solvable_split_iff (range : NonceRange) (workers : Nat) :
    (∃ part ∈ range.split workers, job.Solvable candidates part) ↔
      job.Solvable candidates range := by
  unfold Solvable
  constructor
  · rintro ⟨part, hpart, nonce, hholds, hsolves⟩
    exact ⟨nonce, (range.exists_part_of_split_iff workers _).mp ⟨part, hpart, hholds⟩, hsolves⟩
  · rintro ⟨nonce, hholds, hsolves⟩
    obtain ⟨part, hpart, hin⟩ := (range.exists_part_of_split_iff workers _).mpr hholds
    exact ⟨part, hpart, nonce, hin, hsolves⟩

theorem decided_mine_of_linked (hoffers : job.Offers candidates) (workers : Nat)
    (range : NonceRange) {caller : CancelFlag} {turns : List Search.Turn} {flags : FlagStore}
    (hflag : (flags.linked caller).2.isRaised (flags.linked caller).1 = false)
    (hturns : ∀ t ∈ turns, t.Spares (flags.linked caller).1) :
    Decided (job.Solvable candidates range) range.size
      (job.mine workers range caller turns flags).1 := by
  obtain ⟨results, hdue, hdecided⟩ := decided_workers hoffers (range.split workers)
  have hwhole := Search.decided_merge hdecided
  rw [range.total_size_split] at hwhole
  have hstart : (Search.start job workers range caller flags).Pending results := .due hflag hdue
  have hend := hstart.run hturns
  exact hend.decided (Search.isRunning_finish _) (hwhole.congr (solvable_split_iff range workers))

theorem decided_mine (hoffers : job.Offers candidates) (workers : Nat) (range : NonceRange)
    {caller : CancelFlag} {turns : List Search.Turn} {flags : FlagStore}
    (hflag : flags.isRaised caller = false)
    (hturns : ∀ t ∈ turns, t.Spares (flags.linked caller).1) :
    Decided (job.Solvable candidates range) range.size
      (job.mine workers range caller turns flags).1 :=
  decided_mine_of_linked hoffers workers range (FlagStore.isRaised_linked hflag) hturns

/-- A solver that offers the same candidates for a nonce whenever it is asked makes a session and
a search by any number of workers find a header in the same ranges, those that have a solution.
Whatever the solver does, a search leaves all flags as others have left them. -/
theorem mine_agrees (job : MiningJob) (workers : Nat) (range : NonceRange) :
    (∀ candidates : Word256 → List Bytes, job.Offers candidates →
      ∀ (caller : CancelFlag) (turns : List Search.Turn) (flags : FlagStore) (session : Session),
        flags.isRaised caller = false → (∀ t ∈ turns, t.Spares (flags.linked caller).1) →
        ((∃ mined, (job.mine workers range caller turns flags).1 = .ok mined) ↔
          job.Solvable candidates range) ∧
        ((∃ mined after, ((job.run session range).runAlone caller flags).1 =
          some (.ok mined, after)) ↔ job.Solvable candidates range) ∧
        (¬job.Solvable candidates range → (job.mine workers range caller turns flags).1 =
          .error (.noncesExhausted (range.last.toNat + 1 - range.start.toNat)))) ∧
    ∀ (caller : CancelFlag) (turns : List Search.Turn) (flags : FlagStore), ∃ cell,
      (job.mine workers range caller turns flags).2.cells =
        (turns.foldl Search.Turn.alter flags).cells ++ [cell] := by
  constructor
  · intro candidates hoffers caller turns flags session hflag hturns
    have hmine := decided_mine hoffers workers range hflag hturns
    obtain ⟨result, after, hsettles, hrun⟩ := decided_run hoffers session range
    refine ⟨hmine.ok_iff, ?_, hmine.eq_exhausted⟩
    rw [hsettles.runAlone hflag, ← hrun.ok_iff]
    simp
  · intro caller turns flags
    exact Search.extends_run (Search.extends_start job workers range caller flags) rfl turns

/-- A job whose solver offers two solutions for each nonce, of which the first is refused, and a
target that half of all hashes meet. -/
def patientJob : MiningJob where
  solver := .scripted "patient" [[2]] [] ⟨[[2], []], false, .answer⟩
  header := { (default : Header) with bits := 0x207fffff }
  powLimit := BitVec.allOnes 256 >>> 1

theorem mine_agrees_patientJob :
    (∃ mined, (patientJob.mine 2 ⟨6, 8⟩ ⟨0, none⟩ [.worker 1, .worker 0] ⟨[false]⟩).1 =
      .ok mined) ∧
    (refusedJob.mine 2 ⟨6, 8⟩ ⟨0, none⟩ [.worker 1, .worker 0] ⟨[false]⟩).1 =
      .error (.noncesExhausted 3) ∧
    ∃ cell, (patientJob.mine 2 ⟨6, 8⟩ ⟨0, none⟩ [.worker 1, .worker 0] ⟨[false]⟩).2.cells =
      [false, cell] := by
  have hturns : ∀ t ∈ [Search.Turn.worker 1, .worker 0],
      t.Spares (FlagStore.linked ⟨[false]⟩ ⟨0, none⟩).1 := by
    simp [Search.Turn.Spares]
  obtain ⟨hpatient, hflags⟩ := mine_agrees patientJob 2 ⟨6, 8⟩
  obtain ⟨hrefused, -⟩ := mine_agrees refusedJob 2 ⟨6, 8⟩
  refine ⟨?_, ?_, hflags ⟨0, none⟩ _ ⟨[false]⟩⟩
  · refine (hpatient (fun _ => [[2], []]) (fun calls nonce => Script.offers_attempt _) ⟨0, none⟩ _
      ⟨[false]⟩ default rfl hturns).1.mpr ?_
    have hmeets : [(6 : Word256), 7, 8].any (fun nonce => CompactTarget.meets
        (Header.hash { patientJob.header with nonce := .ofWord nonce, solution := [] })
        patientJob.header.bits patientJob.powLimit) = true := by decide +kernel
    obtain ⟨nonce, hnonce, hmeets⟩ := List.any_eq_true.mp hmeets
    have hholds : NonceRange.Holds ⟨6, 8⟩ nonce.toNat := by
      simp only [List.mem_cons, List.not_mem_nil, or_false] at hnonce
      rcases hnonce with rfl | rfl | rfl <;> exact ⟨by decide, by decide⟩
    exact ⟨nonce, hholds, [], by simp, rfl, hmeets⟩
  · refine (hrefused (fun _ => [[1]]) (fun calls nonce => Script.offers_attempt _) ⟨0, none⟩ _
      ⟨[false]⟩ default rfl hturns).2.2 ?_
    rintro ⟨nonce, -, solution, hsolution, hverify, -⟩
    cases List.mem_singleton.mp hsolution
    nomatch hverify

end MiningJob

end BlockProduction

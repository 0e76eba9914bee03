import BlockProduction.Proofs.Selection.Queue

/-!
# What a round vouches for

Whatever the limits, the sums and the queue do, a round asks the gate about
everybody before they enter the block, it remembers the verdicts as they were
given, and it builds on the context that it was given.
-/

namespace BlockProduction

/-- A draft that takes transactions in appends them, and nothing else changes. -/
theorem Draft.eq_of_pushAll {draft next : Draft} {txs : List Candidate}
    (h : draft.pushAll txs = .ok next) :
    next = { draft with transactions := draft.transactions ++ txs } := by
  unfold pushAll at h
  induction txs generalizing draft with
  | nil =>
      cases h
      rw [List.append_nil]
  | cons tx txs ih =>
      rw [List.foldlM_cons] at h
      obtain ⟨pushed, hpush, hrest⟩ := Error.bind_eq_ok_iff.mp h
      unfold push at hpush
      split at hpush
      · nomatch hpush
      · cases hpush
        rw [ih hrest, List.append_assoc, List.singleton_append]

namespace RoundSetting

variable {s : RoundSetting} {r next : Round s.graph.size} {id : Fin s.graph.size}
  {members : List (Fin s.graph.size)}

structure Vouched (s : RoundSetting) (r : Round s.graph.size) : Prop where
  context_eq : r.draft.context = s.context
  verdict_eq : ∀ {id verdict}, r.verdicts.get id = some verdict → verdict = s.gate? (s.graph.tx id)
  admitted : ∀ tx ∈ r.draft.transactions, s.gate? tx = none

theorem vouched_start (s : RoundSetting) : Vouched s s.start where
  context_eq := rfl
  verdict_eq := fun h => by simp [start] at h
  admitted := fun tx htx => nomatch htx

/-! ## Rejecting -/

theorem Vouched.skip (h : Vouched s r) (id : Fin s.graph.size) (reason : SkipReason) :
    Vouched s (s.skip r id reason) :=
  ⟨h.context_eq, h.verdict_eq, h.admitted⟩

theorem Vouched.reject (h : Vouched s r) (id : Fin s.graph.size) (reason : SkipReason) :
    Vouched s (s.reject r id reason) := by
  -- descendants fall one by one, and the draft and the verdicts stay
  have hall : ∀ (below : List (Fin s.graph.size)) {r : Round s.graph.size}, Vouched s r →
      Vouched s (below.foldl (fun r d =>
        if r.inBlock.get d || r.skipped.get d then r
        else s.skip r d (.ancestorSkipped (s.graph.hash id))) r) := by
    intro below
    induction below with
    | nil => exact fun h => h
    | cons d below ih =>
        intro r h
        rw [List.foldl_cons]
        split
        · exact ih h
        · exact ih (h.skip d _)
  unfold RoundSetting.reject
  apply hall
  split
  · exact h
  · exact h.skip id reason

theorem Vouched.fail (h : Vouched s r) :
    ∃ next, Vouched s next ∧ (s.fail r = .next next ∨ s.fail r = .full next) := by
  have hcounted : Vouched s { r with failures := r.failures + 1 } :=
    ⟨h.context_eq, h.verdict_eq, h.admitted⟩
  unfold RoundSetting.fail
  dsimp only
  split
  · exact ⟨_, hcounted, .inr rfl⟩
  · exact ⟨_, hcounted, .inl rfl⟩

/-! ## Asking the gate -/

/-- A verdict is the gate's, whether it is remembered or not. -/
theorem Vouched.ask (h : Vouched s r) (id : Fin s.graph.size) :
    (s.ask r id).1 = s.gate? (s.graph.tx id) ∧ Vouched s (s.ask r id).2 := by
  unfold RoundSetting.ask
  cases hknown : r.verdicts.get id with
  | some verdict => exact ⟨h.verdict_eq hknown, h⟩
  | none =>
      refine ⟨rfl, h.context_eq, ?_, h.admitted⟩
      intro other verdict hverdict
      dsimp only at hverdict
      rw [get_put] at hverdict
      by_cases heq : other = id
      · rw [if_pos heq] at hverdict
        cases hverdict
        rw [heq]
      · rw [if_neg heq] at hverdict
        exact h.verdict_eq hverdict

/-- When nobody is refused, the gate has let everybody through. -/
theorem Vouched.firstRefused (h : Vouched s r) (members : List (Fin s.graph.size)) :
    Vouched s (s.firstRefused r members).2 ∧ ((s.firstRefused r members).1 = none →
      ∀ id ∈ members, s.gate? (s.graph.tx id) = none) := by
  induction members generalizing r with
  | nil => exact ⟨h, fun _ => nofun⟩
  | cons id members ih =>
      obtain ⟨hverdict, hasked⟩ := h.ask id
      rw [RoundSetting.firstRefused]
      cases hask : s.ask r id with
      | mk verdict asked =>
          rw [hask] at hverdict hasked
          cases verdict with
          | some reason => exact ⟨hasked, nofun⟩
          | none =>
              obtain ⟨hrest, hnone⟩ := ih hasked
              refine ⟨hrest, fun hfound other hother => ?_⟩
              rcases List.mem_cons.mp hother with rfl | hlater
              · exact hverdict.symm
              · exact hnone hfound other hlater

/-! ## Including -/

theorem Vouched.accept (h : Vouched s r) (hgate : ∀ id ∈ members, s.gate? (s.graph.tx id) = none)
    {p : Package} (haccept : s.accept r members p = .ok next) : Vouched s next := by
  obtain ⟨draft, hpush, hnext⟩ := Error.bind_eq_ok_iff.mp haccept
  cases hnext
  rw [Draft.eq_of_pushAll hpush]
  refine ⟨h.context_eq, h.verdict_eq, ?_⟩
  intro tx htx
  rcases List.mem_append.mp htx with hold | hnew
  · exact h.admitted tx hold
  · obtain ⟨id, hid, rfl⟩ := List.mem_map.mp hnew
    exact hgate id hid

theorem Vouched.consider (h : Vouched s r) {head : Fin s.graph.size}
    {considered : Considered s.graph.size} (hconsider : s.consider r head = .ok considered) :
    ∃ next, Vouched s next ∧ (considered = .next next ∨ considered = .full next) := by
  unfold RoundSetting.consider at hconsider
  dsimp only at hconsider
  split at hconsider
  · cases hconsider
    exact ⟨_, h.reject head _, .inl rfl⟩
  · cases hconsider
    exact (h.reject head _).fail
  · obtain ⟨hasked, hadmitted⟩ := h.firstRefused (s.members r head)
    cases hfound : s.firstRefused r (s.members r head) with
    | mk refusal asked =>
        rw [hfound] at hconsider hasked hadmitted
        cases refusal with
        | some refusal =>
            cases hconsider
            exact (hasked.reject _ _).fail
        | none =>
            dsimp only at hconsider
            cases haccept : s.accept asked (s.members r head) (r.queue.modified.get head) with
            | error e =>
                rw [haccept] at hconsider
                nomatch hconsider
            | ok next =>
                rw [haccept] at hconsider
                cases hconsider
                exact ⟨next, hasked.accept (hadmitted rfl) haccept, .inl rfl⟩

/-- A round that ends with a report has ended in a state that it vouches for. -/
theorem Vouched.run (h : Vouched s r) (budget : Nat) {report : SelectionReport}
    (hrun : s.run budget r = .ok report) :
    ∃ last stop, Vouched s last ∧ report = s.report last stop := by
  induction budget generalizing r with
  | zero =>
      unfold RoundSetting.run at hrun
      cases hpop : r.queue.pop? with
      | none =>
          rw [hpop] at hrun
          cases hrun
          exact ⟨r, _, h, rfl⟩
      | some popped =>
          rw [hpop] at hrun
          cases hrun
          exact ⟨r, _, h, rfl⟩
  | succ budget ih =>
      unfold RoundSetting.run at hrun
      cases hpop : r.queue.pop? with
      | none =>
          rw [hpop] at hrun
          cases hrun
          exact ⟨r, _, h, rfl⟩
      | some popped =>
          obtain ⟨head, queue⟩ := popped
          rw [hpop] at hrun
          dsimp only at hrun
          have hpopped : Vouched s { r with queue, considered := r.considered + 1 } :=
            ⟨h.context_eq, h.verdict_eq, h.admitted⟩
          cases hconsider : s.consider { r with queue, considered := r.considered + 1 } head with
          | error e =>
              rw [hconsider] at hrun
              nomatch hrun
          | ok considered =>
              rw [hconsider] at hrun
              obtain ⟨next, hnext, rfl | rfl⟩ := hpopped.consider hconsider
              · exact ih hnext hrun
              · cases hrun
                exact ⟨next, _, hnext, rfl⟩

end RoundSetting

/-- The block of a round stands on the context of the round, and everybody in it has passed the
gate. -/
theorem Selector.vouched_select {selector : Selector} {view : PoolView}
    {confirmations : Confirmations} {context : RoundContext} {report : SelectionReport}
    (h : selector.select view confirmations context = .ok report) :
    ∃ graph, CandidateGraph.ofView view = .ok graph ∧ report.draft.context = context ∧
      ∀ tx ∈ report.draft.transactions,
        RoundSetting.gate? { selector, graph, confirmations, context } tx = none := by
  unfold select at h
  cases hview : CandidateGraph.ofView view with
  | error e =>
      rw [hview] at h
      nomatch h
  | ok graph =>
      rw [hview] at h
      obtain ⟨last, stop, hlast, rfl⟩ := (RoundSetting.vouched_start _).run _ h
      exact ⟨graph, rfl, hlast.context_eq, hlast.admitted⟩

end BlockProduction

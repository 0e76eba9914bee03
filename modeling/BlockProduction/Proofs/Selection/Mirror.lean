import BlockProduction.Proofs.Selection.Parts

/-!
# Rounds side by side

A round over the whole pool and a round over a part of it, decision by decision.
As long as nobody outside the part is included, and the gate refuses nobody
inside, a decision about a candidate of the part is the same in both rounds, and
a decision about any other candidate leaves the part alone.  The second round may
go on where the first one stops, so its block begins with the first one's.
-/

namespace BlockProduction

section Ledger

variable {g : CandidateGraph}

theorem isOpen_reject (l : Ledger g.size) (id x : Fin g.size) (reason : SkipReason) :
    (g.reject l id reason).isOpen x = true ↔
      l.isOpen x = true ∧ x ≠ id ∧ x ∉ g.descendantsOf id := by
  rw [Ledger.isOpen_iff, Ledger.isOpen_iff, mem_skipped_reject]
  show x ∉ l.block ∧ _ ∧ x ∉ l.considered ↔ _
  tauto

theorem mem_skips_reject (l : Ledger g.size) (id : Fin g.size) (reason : SkipReason) :
    (id, reason) ∈ (g.reject l id reason).skips :=
  List.mem_append_right _ (.head _)

end Ledger

namespace RoundSetting

section Judge

variable {s : RoundSetting} {package : List (Fin s.graph.size) → Fin s.graph.size → Package}
  {l l' : Ledger s.graph.size} {head : Fin s.graph.size}

theorem inadmissible_of_refused {id : Fin s.graph.size} {reason : SkipReason}
    {members : List (Fin s.graph.size)} (hfound : members.findSome? s.refusal? = some (id, reason)) :
    reason.Inadmissible := by
  obtain ⟨m, -, hrefusal⟩ := List.exists_of_findSome?_eq_some hfound
  exact inadmissible_of_gate? (gate?_of_refusal? hrefusal).2

/-- A round ends on a failure, so the block does not change. -/
theorem block_of_judge_stop {stop : StopReason} (h : s.judge package l head = (l', some stop)) :
    l'.block = l.block := by
  rcases (decides_of_judge h).block_cases with hsame | ⟨-, hcheck, hgate⟩
  · exact hsame
  · have hfound : (s.graph.remaining l.block head).findSome? s.refusal? = none := by
      apply List.findSome?_eq_none_iff.mpr
      intro m hm
      rw [refusal?, hgate m hm, Option.map_none]
    rw [judge_of_admitted hcheck hfound] at h
    cases h

end Judge

variable {s s' : RoundSetting} {p : Part s s'}

/-! ## The relation -/

/-- The part decided what the whole decided about it. -/
structure Mirrors (p : Part s s') (l : Ledger s.graph.size) (l' : Ledger s'.graph.size) : Prop where
  block_eq : l.block = l'.block.map p.place
  isOpen_iff : ∀ i, l.isOpen (p.place i) = true ↔ l'.isOpen i = true
  failures_le : l'.failures ≤ l.failures

/-- Nobody outside the part was included, and the gate refused nobody inside. -/
structure Spares (p : Part s s') (l : Ledger s.graph.size) : Prop where
  placed : ∀ id ∈ l.block, ∃ i, p.place i = id
  admissible : ∀ {i reason}, (p.place i, reason) ∈ l.skips → ¬ reason.Inadmissible

theorem Spares.before {l l' : Ledger s.graph.size} (h : Spares p l') (hblock : l.block ⊆ l'.block)
    (hskips : l.skips ⊆ l'.skips) : Spares p l :=
  ⟨fun id hid => h.placed id (hblock hid), fun hentry => h.admissible (hskips hentry)⟩

namespace Mirrors

variable {l : Ledger s.graph.size} {l' : Ledger s'.graph.size}

theorem empty (p : Part s s') : Mirrors p .empty .empty :=
  ⟨rfl, fun _ => by simp [Ledger.isOpen_iff, Ledger.empty, Ledger.skipped], Nat.le_refl _⟩

variable (h : Mirrors p l l')
include h

theorem mem_block_iff {i : Fin s'.graph.size} : p.place i ∈ l.block ↔ i ∈ l'.block := by
  rw [h.block_eq, p.place_mem_map_iff]

theorem best?_none (hbest : s.best? s.graph.reduced l = none) :
    s'.best? s'.graph.reduced l' = none := by
  apply best?_eq_none_iff.mpr
  intro i
  have hclosed := best?_eq_none_iff.mp hbest (p.place i)
  rw [Bool.eq_false_iff, ne_eq, ← h.isOpen_iff]
  exact Bool.eq_false_iff.mp hclosed

theorem best?_place (hpart : s'.graph.Consistent) {i : Fin s'.graph.size}
    (hbest : s.best? s.graph.reduced l = some (p.place i)) :
    s'.best? s'.graph.reduced l' = some i := by
  apply best?_eq_some hpart ((h.isOpen_iff i).mp (isOpen_of_best? hbest))
  intro j hj
  have hleads := leads_of_best? hbest ((h.isOpen_iff j).mpr hj)
  rwa [h.block_eq, p.leads_place] at hleads

theorem check_eq (i : Fin s'.graph.size) :
    s.selector.limits.check (s.usageOf l.block) (s.graph.reduced l.block (p.place i)) =
      s'.selector.limits.check (s'.usageOf l'.block) (s'.graph.reduced l'.block i) := by
  rw [h.block_eq]
  exact p.check_place l'.block i

theorem remaining_eq (i : Fin s'.graph.size) :
    s.graph.remaining l.block (p.place i) = (s'.graph.remaining l'.block i).map p.place := by
  rw [h.block_eq]
  exact p.remaining_place l'.block i

/-! ## Steps of the part -/

theorem consider (i : Fin s'.graph.size) :
    Mirrors p (l.consider (p.place i)) (l'.consider i) := by
  refine ⟨h.block_eq, fun j => ?_, h.failures_le⟩
  rw [Ledger.isOpen_consider, Ledger.isOpen_consider, Bool.and_eq_true, Bool.and_eq_true,
    h.isOpen_iff, decide_eq_true_eq, decide_eq_true_eq, ne_eq, ne_eq, p.place_inj]

theorem reject (hg : s.graph.Consistent) (hpart : s'.graph.Consistent) (i : Fin s'.graph.size)
    (reason reason' : SkipReason) :
    Mirrors p (s.graph.reject l (p.place i) reason) (s'.graph.reject l' i reason') := by
  refine ⟨h.block_eq, fun j => ?_, h.failures_le⟩
  rw [isOpen_reject, isOpen_reject, h.isOpen_iff, ne_eq, p.place_inj,
    p.place_mem_descendantsOf_iff hg hpart]

theorem extend (i : Fin s'.graph.size) :
    Mirrors p (l.extend (s.graph.remaining l.block (p.place i)))
      (l'.extend (s'.graph.remaining l'.block i)) := by
  refine ⟨?_, fun j => ?_, Nat.le_refl _⟩
  · show l.block ++ _ = (l'.block ++ _).map p.place
    rw [h.remaining_eq, List.map_append, ← h.block_eq]
  · rw [Ledger.isOpen_extend, Ledger.isOpen_extend, Bool.and_eq_true, Bool.and_eq_true,
      h.isOpen_iff, h.remaining_eq, decide_eq_true_eq, decide_eq_true_eq, p.place_mem_map_iff]

/-- The part has no more failures than the whole, so it ends no earlier. -/
theorem failed : Mirrors p (s.failed l).1 (s'.failed l').1 ∧
    ∀ stop, (s'.failed l').2 = some stop → (s.failed l).2 = some stop := by
  have hfailures := h.failures_le
  constructor
  · rw [failed_ledger, failed_ledger]
    refine ⟨h.block_eq, h.isOpen_iff, ?_⟩
    show l'.failures + 1 ≤ l.failures + 1
    omega
  · intro stop hstop
    have husage : s.usageOf l.block = s'.usageOf l'.block := by
      rw [h.block_eq]
      exact p.usageOf_place l'.block
    simp only [RoundSetting.failed, p.selector_eq, ← husage] at hstop
    simp only [RoundSetting.failed]
    split at hstop
    · rename_i hfull
      obtain ⟨hmany, hnear⟩ := Bool.and_eq_true_iff.mp hfull
      have hmany := of_decide_eq_true hmany
      rw [if_pos]
      · exact hstop
      · exact Bool.and_eq_true_iff.mpr ⟨decide_eq_true (by omega), hnear⟩
    · contradiction

/-- A decision about a candidate of the part is made in the part. -/
theorem judge (hg : s.graph.Consistent) (hpart : s'.graph.Consistent) (i : Fin s'.graph.size)
    (hspares : Spares p (s.judge s.graph.reduced l (p.place i)).1) :
    Mirrors p (s.judge s.graph.reduced l (p.place i)).1 (s'.judge s'.graph.reduced l' i).1 ∧
      ∀ stop, (s'.judge s'.graph.reduced l' i).2 = some stop →
        (s.judge s.graph.reduced l (p.place i)).2 = some stop := by
  have hcheck := h.check_eq i
  have hfound := p.findSome?_refusal?_place hg (s'.graph.remaining l'.block i)
  rw [← h.remaining_eq] at hfound
  cases hverdict : s'.selector.limits.check (s'.usageOf l'.block)
      (s'.graph.reduced l'.block i) with
  | underpays required =>
      rw [judge_of_underpays (hcheck.trans hverdict), judge_of_underpays hverdict]
      exact ⟨h.reject hg hpart i _ _, fun _ hstop => hstop⟩
  | overflows weight sigopCost =>
      rw [judge_of_overflows (hcheck.trans hverdict), judge_of_overflows hverdict]
      exact (h.reject hg hpart i _ _).failed
  | fits =>
      cases hrefused : (s'.graph.remaining l'.block i).findSome? s'.refusal? with
      | none =>
          rw [hrefused, Option.map_none] at hfound
          rw [judge_of_admitted (hcheck.trans hverdict) hfound, judge_of_admitted hverdict hrefused]
          exact ⟨h.extend i, fun _ hstop => hstop⟩
      | some refusal =>
          rw [hrefused, Option.map_some] at hfound
          rw [judge_of_refused (hcheck.trans hverdict) hfound, failed_ledger] at hspares
          exact absurd (inadmissible_of_refused hfound)
            (hspares.admissible (mem_skips_reject _ _ _))

/-! ## Steps outside the part -/

theorem consider_outside {head : Fin s.graph.size} (hout : ∀ i, p.place i ≠ head) :
    Mirrors p (l.consider head) l' := by
  refine ⟨h.block_eq, fun j => ?_, h.failures_le⟩
  rw [Ledger.isOpen_consider, Bool.and_eq_true, h.isOpen_iff, decide_eq_true_eq]
  exact and_iff_left (hout j)

theorem reject_outside (hg : s.graph.Consistent) {id : Fin s.graph.size}
    (hout : ∀ i, p.place i ≠ id) (reason : SkipReason) :
    Mirrors p (s.graph.reject l id reason) l' := by
  refine ⟨h.block_eq, fun j => ?_, h.failures_le⟩
  rw [isOpen_reject, h.isOpen_iff]
  apply and_iff_left
  refine ⟨hout j, fun hbelow => ?_⟩
  obtain ⟨i, hi⟩ := p.exists_place_of_descendant hg hbelow
  exact hout i hi

theorem failed_outside : Mirrors p (s.failed l).1 l' := by
  rw [failed_ledger]
  exact ⟨h.block_eq, h.isOpen_iff, Nat.le_succ_of_le h.failures_le⟩

/-- A decision about any other candidate leaves the part alone. -/
theorem judge_outside (hg : s.graph.Consistent) {head : Fin s.graph.size}
    (hout : ∀ i, p.place i ≠ head) (hspares : Spares p (s.judge s.graph.reduced l head).1) :
    Mirrors p (s.judge s.graph.reduced l head).1 l' := by
  cases hcheck : s.selector.limits.check (s.usageOf l.block) (s.graph.reduced l.block head) with
  | underpays required =>
      rw [judge_of_underpays hcheck]
      exact h.reject_outside hg hout _
  | overflows weight sigopCost =>
      rw [judge_of_overflows hcheck]
      exact (h.reject_outside hg hout _).failed_outside
  | fits =>
      cases hfound : (s.graph.remaining l.block head).findSome? s.refusal? with
      | some refusal =>
          rw [judge_of_refused hcheck hfound] at hspares ⊢
          rw [failed_ledger] at hspares
          have hmember : ∀ i, p.place i ≠ refusal.1 := by
            intro i heq
            have hentry : (p.place i, refusal.2) ∈ (s.graph.reject l refusal.1 refusal.2).skips := by
              rw [heq]
              exact mem_skips_reject _ _ _
            exact hspares.admissible hentry (inadmissible_of_refused hfound)
          exact (h.reject_outside hg hmember _).failed_outside
      | none =>
          rw [judge_of_admitted hcheck hfound] at hspares
          have hin : head ∈ s.graph.remaining l.block head := mem_remaining.mpr (.inl rfl)
          obtain ⟨i, hi⟩ := hspares.placed head (List.mem_append_right _ hin)
          exact absurd hi (hout i)

/-! ## Whole rounds -/

/-- When the whole included all of the part, nothing is left to do for the part. -/
theorem greedy_of_included (hall : ∀ i, p.place i ∈ l.block) (budget : Nat) :
    s'.greedy s'.graph.reduced budget l' = (l', .poolExhausted) := by
  apply greedy_of_none
  apply best?_eq_none_iff.mpr
  intro i
  rw [Bool.eq_false_iff]
  intro hopen
  exact (Ledger.isOpen_iff.mp hopen).1 (h.mem_block_iff.mp (hall i))

theorem prefix_map_greedy (budget : Nat) :
    l.block <+: (s'.greedy s'.graph.reduced budget l').1.block.map p.place := by
  rw [h.block_eq]
  exact (begins_greedy budget l').block.map p.place

end Mirrors

/-- What the round over the part has from the round over the whole. -/
structure Continues (p : Part s s') (whole : Ledger s.graph.size × StopReason)
    (part : Ledger s'.graph.size × StopReason) : Prop where
  begins : whole.1.block <+: part.1.block.map p.place
  complete : whole.2 = .poolExhausted ∨ (∀ i, p.place i ∈ whole.1.block) →
    whole.1.block = part.1.block.map p.place ∧ part.2 = .poolExhausted

/-- Where the whole stops before it is exhausted, the part may go on. -/
theorem Mirrors.continues {l next : Ledger s.graph.size} {l' : Ledger s'.graph.size}
    {stop : StopReason} (h : Mirrors p l l') (budget : Nat) (hblock : next.block = l.block)
    (hstop : stop ≠ .poolExhausted) :
    Continues p (next, stop) (s'.greedy s'.graph.reduced budget l') := by
  constructor
  · rw [hblock]
    exact h.prefix_map_greedy budget
  · rintro (hexhausted | hall)
    · exact absurd hexhausted hstop
    · simp only [hblock] at hall
      rw [h.greedy_of_included hall]
      exact ⟨hblock.trans h.block_eq, rfl⟩

theorem Mirrors.greedy (hg : s.graph.Consistent) (hpart : s'.graph.Consistent)
    {budget budget' : Nat} (hbudget : budget ≤ budget') {l : Ledger s.graph.size}
    {l' : Ledger s'.graph.size} (h : Mirrors p l l')
    (hspares : Spares p (s.greedy s.graph.reduced budget l).1) :
    Continues p (s.greedy s.graph.reduced budget l) (s'.greedy s'.graph.reduced budget' l') := by
  fun_induction s.greedy s.graph.reduced budget l generalizing budget' l' with
  | case1 budget l hbest =>
      refine ⟨h.prefix_map_greedy budget', fun _ => ?_⟩
      rw [greedy_of_none budget' (h.best?_none hbest)]
      exact ⟨h.block_eq, rfl⟩
  | case2 l head hbest => exact h.continues budget' rfl (by simp)
  | case3 l head hbest budget next stop hjudge =>
      have hfull := judge_stop s s.graph.reduced (l.consider head) head
      rw [hjudge] at hfull
      have hblock : next.block = (l.consider head).block := block_of_judge_stop hjudge
      apply h.continues budget' hblock
      rintro rfl
      simp at hfull
  | case4 l head hbest budget next hjudge ih =>
      have hnext : Spares p (s.judge s.graph.reduced (l.consider head) head).1 := by
        rw [hjudge]
        have hbegins : next.Begins (s.greedy s.graph.reduced budget next).1 := begins_greedy budget next
        exact hspares.before hbegins.block.subset hbegins.skips.subset
      by_cases hplaced : ∃ i, p.place i = head
      · obtain ⟨i, rfl⟩ := hplaced
        obtain ⟨budget', rfl⟩ : ∃ fewer, budget' = fewer + 1 := ⟨budget' - 1, by omega⟩
        have hstep := (h.consider i).judge hg hpart i hnext
        rw [hjudge] at hstep
        rw [greedy_succ budget' (h.best?_place hpart hbest)]
        cases hjudge' : s'.judge s'.graph.reduced (l'.consider i) i with
        | mk next' stop' =>
            rw [hjudge'] at hstep
            cases stop' with
            | some stop' => exact absurd (hstep.2 stop' rfl) (by simp)
            | none => exact ih (by omega) hstep.1 hspares
      · have hout : ∀ i, p.place i ≠ head := fun i hi => hplaced ⟨i, hi⟩
        have hstep := (h.consider_outside hout).judge_outside hg hout hnext
        rw [hjudge] at hstep
        exact ih (by omega) hstep hspares

end RoundSetting

end BlockProduction

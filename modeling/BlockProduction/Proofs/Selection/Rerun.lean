import BlockProduction.Proofs.Selection.Mirror
import BlockProduction.Proofs.Selection.Report

/-!
# Rounds over what is left of a pool

Candidates that a round did not include leave the pool, together with whoever
depends on them, and the round is run again.  When it had exhausted the pool, it
comes to the same block, unless it stops early: a candidate that the gate refuses
may be found through other heads, and more heads are considered, when others that
would have been rejected with it are gone.  When just the included candidates are
left, they make up the same block.
-/

namespace BlockProduction

namespace RoundSetting

variable {s s' : RoundSetting} {view rest : PoolView}

/-! ## Candidates that no block may hold -/

/-- Whether the gate refuses a candidate or something that it depends on. -/
def barred (s : RoundSetting) (id : Fin s.graph.size) : Bool :=
  (id :: s.graph.ancestorsOf id).any fun m => (s.gate? (s.graph.tx m)).isSome

def barredHashes (s : RoundSetting) : List Hash256 :=
  (s.graph.ids.filter s.barred).map s.graph.hash

theorem barred_iff {id : Fin s.graph.size} :
    s.barred id = true ↔ ∃ m, (m = id ∨ m ∈ s.graph.ancestorsOf id) ∧
      (s.gate? (s.graph.tx m)).isSome = true := by
  simp only [barred, List.any_eq_true, List.mem_cons]

theorem hash_mem_barredHashes_iff (hg : s.graph.Consistent) {id : Fin s.graph.size} :
    s.graph.hash id ∈ s.barredHashes ↔ s.barred id = true := by
  rw [barredHashes, List.mem_map_of_injective fun a b => hg.hash_inj, List.mem_filter]
  exact and_iff_right (CandidateGraph.mem_ids id)

theorem barred_of_descendant (hg : s.graph.Consistent) {id d : Fin s.graph.size}
    (h : s.barred id = true) (hd : d ∈ s.graph.descendantsOf id) : s.barred d = true := by
  obtain ⟨m, hm, hgate⟩ := barred_iff.mp h
  have hancestor := hg.mem_descendants_iff.mp hd
  refine barred_iff.mpr ⟨m, .inr ?_, hgate⟩
  rcases hm with rfl | hm
  · exact hancestor
  · exact hg.ancestors_trans hm hancestor

theorem closedBelow_barredHashes (hview : CandidateGraph.ofView view = .ok s.graph) :
    view.ClosedBelow s.barredHashes := by
  have hg := CandidateGraph.consistent_of_ofView hview
  have hshown := CandidateGraph.represents_of_ofView hview
  intro a ha hbarred d hd
  obtain ⟨a, rfl⟩ := hshown.mem_hashes_iff.mp ha
  obtain ⟨d, hbelow, rfl⟩ := hshown.mem_descendantsOf_iff.mp hd
  rw [hash_mem_barredHashes_iff hg] at hbarred ⊢
  exact barred_of_descendant hg hbarred hbelow

theorem not_barred_of_included (hg : s.graph.Consistent) {id : Fin s.graph.size}
    (hid : id ∈ s.outcome.1.block) : s.barred id = false := by
  rw [Bool.eq_false_iff]
  intro hbarred
  obtain ⟨m, hm, hgate⟩ := barred_iff.mp hbarred
  have hin : m ∈ s.outcome.1.block := by
    rcases hm with rfl | hm
    · exact hid
    · exact (settled_outcome hg).lawful.block_closed hid hm
  rw [admitted_outcome s m hin] at hgate
  contradiction

theorem barred_of_refused {id : Fin s.graph.size} {reason : SkipReason}
    (hentry : (id, reason) ∈ s.outcome.1.skips) (hreason : reason.Inadmissible) :
    s.barred id = true := by
  refine barred_iff.mpr ⟨id, .inl rfl, ?_⟩
  rw [refused_outcome s _ hentry hreason]
  rfl

theorem Part.barred_place (p : Part s s') (hg : s.graph.Consistent) (i : Fin s'.graph.size) :
    s.barred (p.place i) = s'.barred i := by
  simp only [barred, p.ancestorsOf_place, ← List.map_cons, List.any_map, Function.comp_def,
    p.gate?_place hg]

/-! ## Parts of a round -/

/-- What a closed set of candidates leaves is a part of the round. -/
theorem exists_part (hview : CandidateGraph.ofView view = .ok s.graph) {gone : List Hash256}
    (hl : view.Leaves gone rest) (hclosed : view.ClosedBelow gone) :
    ∃ s' : RoundSetting, ∃ p : Part s s', CandidateGraph.ofView rest = .ok s'.graph ∧
      ∀ id, (∃ i, p.place i = id) ↔ s.graph.hash id ∉ gone := by
  have hconsistent : view.Consistent := PoolView.accepted_iff_consistent.mp ⟨_, hview⟩
  obtain ⟨part, hrest⟩ := PoolView.accepted_iff_consistent.mpr (hl.consistent hconsistent)
  obtain ⟨p, hplaced⟩ := CandidateGraph.exists_part_of_leaves hview hrest hl hclosed
  exact ⟨{ s with graph := part }, ⟨p, rfl, rfl, rfl⟩, hrest, hplaced⟩

/-- The candidates that the gate has nothing against are a part of the round. -/
theorem exists_part_admissible (hview : CandidateGraph.ofView view = .ok s.graph) :
    ∃ s' : RoundSetting, ∃ p : Part s s', s'.graph.Consistent ∧
      ∀ id, (∃ i, p.place i = id) ↔ s.barred id = false := by
  have hg := CandidateGraph.consistent_of_ofView hview
  have hconsistent : view.Consistent := PoolView.accepted_iff_consistent.mp ⟨_, hview⟩
  obtain ⟨s', p, hrest, hplaced⟩ := exists_part hview
    (hconsistent.leaves_without s.barredHashes) (closedBelow_barredHashes hview)
  refine ⟨s', p, CandidateGraph.consistent_of_ofView hrest, fun id => ?_⟩
  rw [hplaced, hash_mem_barredHashes_iff hg, Bool.not_eq_true]

theorem Part.continues_outcome (p : Part s s') (hg : s.graph.Consistent)
    (hpart : s'.graph.Consistent) (hspares : Spares p s.outcome.1) :
    Continues p s.outcome s'.outcome := by
  have hbudget : s.selector.maxConsidered.toNat ≤ s'.selector.maxConsidered.toNat := by
    rw [p.selector_eq]
  exact (Mirrors.empty p).greedy hg hpart hbudget hspares

/-- A part of admissible candidates is spared, if it holds all that were included. -/
theorem Part.spares_of_admissible (p : Part s s')
    (hincluded : ∀ id ∈ s.outcome.1.block, ∃ i, p.place i = id)
    (hadmissible : ∀ i, s.barred (p.place i) = false) : Spares p s.outcome.1 := by
  refine ⟨hincluded, fun {i reason} hentry hreason => ?_⟩
  have hbarred := barred_of_refused hentry hreason
  rw [hadmissible] at hbarred
  contradiction

/-! ## Running again -/

section Rerun

variable (p : Part s s') (hview : CandidateGraph.ofView view = .ok s.graph)
  (hrest : CandidateGraph.ofView rest = .ok s'.graph)
  (hincluded : ∀ id ∈ s.outcome.1.block, ∃ i, p.place i = id)

include hview hrest hincluded

/-- Both rounds are compared with the round over the admissible candidates of the part. -/
theorem rerun_begins (hstop : s.outcome.2 = .poolExhausted) :
    s'.outcome.1.block.map p.place <+: s.outcome.1.block ∧
      (s'.outcome.2 = .poolExhausted → s.outcome.1.block = s'.outcome.1.block.map p.place) := by
  have hg := CandidateGraph.consistent_of_ofView hview
  have hpart := CandidateGraph.consistent_of_ofView hrest
  obtain ⟨s'', q, hthird, hplaced⟩ := exists_part_admissible hrest
  have hadmissible : ∀ i, s'.barred (q.place i) = false := fun i => (hplaced _).mp ⟨i, rfl⟩
  have hwhole : Spares (p.trans q) s.outcome.1 := by
    apply Part.spares_of_admissible
    · intro id hid
      obtain ⟨i, rfl⟩ := hincluded id hid
      have hfree := not_barred_of_included hg hid
      rw [p.barred_place hg] at hfree
      obtain ⟨j, rfl⟩ := (hplaced i).mpr hfree
      exact ⟨j, rfl⟩
    · intro i
      exact (p.barred_place hg _).trans (hadmissible i)
  have hsecond : Spares q s'.outcome.1 :=
    q.spares_of_admissible (fun i hi => (hplaced i).mpr (not_barred_of_included hpart hi)) hadmissible
  have hthrough := q.continues_outcome hpart hthird hsecond
  have hblock : s.outcome.1.block = (s''.outcome.1.block.map q.place).map p.place := by
    rw [List.map_map]
    exact (((p.trans q).continues_outcome hg hthird hwhole).complete (.inl hstop)).1
  constructor
  · rw [hblock]
    exact hthrough.begins.map p.place
  · intro hstop'
    rw [hblock, ← (hthrough.complete (.inl hstop')).1]

theorem rerun_exhausted (hstop : s.outcome.2 = .poolExhausted)
    (hgone : ∀ {i reason}, (p.place i, reason) ∈ s.outcome.1.skips → ¬ reason.Inadmissible) :
    s'.outcome.2 = .poolExhausted := by
  have hg := CandidateGraph.consistent_of_ofView hview
  have hpart := CandidateGraph.consistent_of_ofView hrest
  have hcontinues := p.continues_outcome hg hpart ⟨hincluded, hgone⟩
  exact (hcontinues.complete (.inl hstop)).2

theorem rerun_included (hall : ∀ i, p.place i ∈ s.outcome.1.block) :
    s.outcome.1.block = s'.outcome.1.block.map p.place ∧ s'.outcome.2 = .poolExhausted ∧
      s'.outcome.1.skips = [] := by
  have hg := CandidateGraph.consistent_of_ofView hview
  have hpart := CandidateGraph.consistent_of_ofView hrest
  have hlawful := (settled_outcome hg).lawful
  have hspares : Spares p s.outcome.1 := by
    refine ⟨hincluded, fun {i reason} hentry _ => ?_⟩
    exact hlawful.not_skipped (hall i) (List.mem_map.mpr ⟨_, hentry, rfl⟩)
  obtain ⟨hblock, hstop⟩ := (p.continues_outcome hg hpart hspares).complete (.inr hall)
  refine ⟨hblock, hstop, List.eq_nil_iff_forall_not_mem.mpr ?_⟩
  intro entry hentry
  have hin : entry.1 ∈ s'.outcome.1.block := by
    rw [← p.place_mem_map_iff, ← hblock]
    exact hall entry.1
  exact (settled_outcome hpart).lawful.not_skipped hin (List.mem_map.mpr ⟨entry, hentry, rfl⟩)

end Rerun

end RoundSetting

/-! ## Views -/

/-- What the report of a round over a pool tells about the report of the same round without
those who have gone. -/
structure SelectionReport.Survives (report again : SelectionReport) (gone : List Hash256) : Prop where
  begins : report.stop = .poolExhausted →
    again.draft.transactions <+: report.draft.transactions
  draft_eq : report.stop = .poolExhausted → again.stop = .poolExhausted →
    again.draft = report.draft
  exhausted : report.stop = .poolExhausted →
    (∀ skip ∈ report.skipped, skip.reason.Inadmissible → skip.hash ∈ gone) →
    again.stop = .poolExhausted

/-- Both rounds end with the same block, the second one with nothing left over. -/
structure SelectionReport.Reproduces (report again : SelectionReport) : Prop where
  draft_eq : again.draft = report.draft
  exhausted : again.stop = .poolExhausted
  skipped_nil : again.skipped = []

namespace RoundSetting

variable {s s' : RoundSetting} {view rest : PoolView} {gone : List Hash256}

theorem hash_mem_hashes_iff (hg : s.graph.Consistent) {l : Ledger s.graph.size} {stop : StopReason}
    {id : Fin s.graph.size} :
    s.graph.hash id ∈ (s.reportOf l stop).draft.hashes ↔ id ∈ l.block := by
  rw [hashes_reportOf]
  exact List.mem_map_of_injective fun a b => hg.hash_inj

section

variable (p : Part s s') (hview : CandidateGraph.ofView view = .ok s.graph)
  (hrest : CandidateGraph.ofView rest = .ok s'.graph)
  (hplaced : ∀ id, (∃ i, p.place i = id) ↔ s.graph.hash id ∉ gone)

include hview hrest hplaced

theorem survives_outcome
    (hkept : ∀ h ∈ (s.reportOf s.outcome.1 s.outcome.2).draft.hashes, h ∉ gone) :
    (s.reportOf s.outcome.1 s.outcome.2).Survives (s'.reportOf s'.outcome.1 s'.outcome.2) gone := by
  have hg := CandidateGraph.consistent_of_ofView hview
  have hincluded : ∀ id ∈ s.outcome.1.block, ∃ i, p.place i = id := by
    intro id hid
    exact (hplaced id).mpr (hkept _ ((hash_mem_hashes_iff hg).mpr hid))
  refine ⟨fun hstop => ?_, fun hstop hstop' => ?_, fun hstop hgone => ?_⟩
  · have hbegins := (rerun_begins p hview hrest hincluded hstop).1.map s.graph.tx
    rw [List.map_map] at hbegins
    simpa only [reportOf, draftOf, Function.comp_def, p.tx_place] using hbegins
  · have hblock := (rerun_begins p hview hrest hincluded hstop).2 hstop'
    show s'.draftOf _ = s.draftOf _
    rw [hblock, p.draftOf_place]
  · apply rerun_exhausted p hview hrest hincluded hstop
    intro i reason hentry hreason
    have hskip : (⟨s.graph.hash (p.place i), reason⟩ : Skip) ∈
        (s.reportOf s.outcome.1 s.outcome.2).skipped := List.mem_map.mpr ⟨_, hentry, rfl⟩
    exact (hplaced _).mp ⟨i, rfl⟩ (hgone _ hskip hreason)

theorem reproduces_outcome (hunselected : ∀ h ∈ view.hashes,
      h ∈ gone ↔ h ∉ (s.reportOf s.outcome.1 s.outcome.2).draft.hashes) :
    (s.reportOf s.outcome.1 s.outcome.2).Reproduces (s'.reportOf s'.outcome.1 s'.outcome.2) := by
  have hg := CandidateGraph.consistent_of_ofView hview
  have hshown := CandidateGraph.represents_of_ofView hview
  have hiff : ∀ id, (∃ i, p.place i = id) ↔ id ∈ s.outcome.1.block := by
    intro id
    rw [hplaced, hunselected _ (hshown.mem_hashes_iff.mpr ⟨id, rfl⟩), not_not,
      hash_mem_hashes_iff hg]
  obtain ⟨hblock, hstop, hskips⟩ := rerun_included p hview hrest (fun id => (hiff id).mpr)
    fun i => (hiff _).mp ⟨i, rfl⟩
  refine ⟨?_, hstop, ?_⟩
  · show s'.draftOf _ = s.draftOf _
    rw [hblock, p.draftOf_place]
  · show s'.outcome.1.skips.map _ = []
    rw [hskips, List.map_nil]

end

/-- Whoever depends on a candidate that was not included was not included. -/
theorem closedBelow_unselected (hview : CandidateGraph.ofView view = .ok s.graph)
    (hunselected : ∀ h ∈ view.hashes,
      h ∈ gone ↔ h ∉ (s.reportOf s.outcome.1 s.outcome.2).draft.hashes) : view.ClosedBelow gone := by
  have hg := CandidateGraph.consistent_of_ofView hview
  have hshown := CandidateGraph.represents_of_ofView hview
  have hlawful := (settled_outcome hg).lawful
  intro a ha hgone d hd
  obtain ⟨a, rfl⟩ := hshown.mem_hashes_iff.mp ha
  obtain ⟨d, hbelow, rfl⟩ := hshown.mem_descendantsOf_iff.mp hd
  rw [hunselected _ ha, hash_mem_hashes_iff hg] at hgone
  rw [hunselected _ (hshown.mem_hashes_iff.mpr ⟨d, rfl⟩), hash_mem_hashes_iff hg]
  exact hlawful.not_mem_block_of_descendant hg hgone hbelow

/-- The report of the round over the part is that of its view. -/
theorem Part.select_eq (p : Part s s') (hrest : CandidateGraph.ofView rest = .ok s'.graph)
    (hweights : s'.WeightsFit) : s.selector.select rest s.confirmations s.context =
      .ok (s'.reportOf s'.outcome.1 s'.outcome.2) := by
  have hselect := s'.select_eq_outcome hrest hweights
  rwa [p.selector_eq, p.confirmations_eq, p.context_eq] at hselect

end RoundSetting

namespace Config

/-- Whether those who have gone can change the block of a round that did not include them: not
when both rounds exhaust their pools, which the second one does if everybody has gone whom the
gate refused, and not when everybody has gone who was not included. -/
theorem select_survives {config : Config} {view : PoolView} (hconfig : config.validate = .ok ())
    (hview : view.Accepted) (confirmations : Confirmations) (context : RoundContext) :
    ∃ report, config.toSelector.select view confirmations context = .ok report ∧
      (∀ {gone rest}, view.Leaves gone rest → view.ClosedBelow gone →
        (∀ h ∈ report.draft.hashes, h ∉ gone) →
        ∃ again, config.toSelector.select rest confirmations context = .ok again ∧
          report.Survives again gone) ∧
      ∀ {gone rest}, view.Leaves gone rest →
        (∀ h ∈ view.hashes, h ∈ gone ↔ h ∉ report.draft.hashes) →
        ∃ again, config.toSelector.select rest confirmations context = .ok again ∧
          report.Reproduces again := by
  have hvalid := Config.validate_eq_ok_iff.mp hconfig
  obtain ⟨graph, hgraph⟩ := hview
  let s : RoundSetting := { selector := config.toSelector, graph, confirmations, context }
  have hrounds : ∀ {s' : RoundSetting}, s.Part s' → s'.WeightsFit :=
    fun p => hvalid.weightsFit p.selector_eq
  refine ⟨_, s.select_eq_outcome hgraph (hvalid.weightsFit rfl), ?_, ?_⟩
  · intro gone rest hl hclosed hkept
    obtain ⟨s', p, hrest, hplaced⟩ := s.exists_part hgraph hl hclosed
    exact ⟨_, p.select_eq hrest (hrounds p), s.survives_outcome p hgraph hrest hplaced hkept⟩
  · intro gone rest hl hunselected
    have hclosed := s.closedBelow_unselected hgraph hunselected
    obtain ⟨s', p, hrest, hplaced⟩ := s.exists_part hgraph hl hclosed
    exact ⟨_, p.select_eq hrest (hrounds p), s.reproduces_outcome p hgraph hrest hplaced hunselected⟩

end Config

/-! ## A decoy -/

/-- It spends an output that is nowhere. -/
def doomedTx : Candidate := ⟨⟨1⟩, 2, 1000, 100, 4, [⟨⟨⟨8⟩, 0⟩, finalSequence⟩], 0, false⟩

/-- It depends on the first, and pays best for both. -/
def decoyTx : Candidate := ⟨⟨2⟩, 2, 100000, 100, 4, [⟨⟨⟨1⟩, 0⟩, finalSequence⟩], 0, false⟩

/-- It depends on the first as well, and does not fit. -/
def heavyTx : Candidate := ⟨⟨3⟩, 2, 60000, 3000, 4, [⟨⟨⟨1⟩, 1⟩, finalSequence⟩], 0, false⟩

/-- It may be included, and pays least. -/
def plainTx : Candidate := ⟨⟨4⟩, 2, 100, 100, 4, [⟨⟨⟨9⟩, 0⟩, finalSequence⟩], 0, false⟩

def decoyPool : PoolView :=
  .ofTables [doomedTx, decoyTx, heavyTx, plainTx]
    [(⟨1⟩, []), (⟨2⟩, [⟨1⟩]), (⟨3⟩, [⟨1⟩]), (⟨4⟩, [])]
    [(⟨1⟩, [⟨2⟩, ⟨3⟩]), (⟨2⟩, []), (⟨3⟩, []), (⟨4⟩, [])]

abbrev decoyGraph : CandidateGraph :=
  { size := 4
    txs := ⟨#[doomedTx, decoyTx, heavyTx, plainTx], rfl⟩
    ancestors := ⟨#[[], [0], [0], []], rfl⟩
    descendants := ⟨#[[1, 2], [], [], []], rfl⟩ }

abbrev exposedGraph : CandidateGraph :=
  { size := 3
    txs := ⟨#[doomedTx, heavyTx, plainTx], rfl⟩
    ancestors := ⟨#[[], [0], []], rfl⟩
    descendants := ⟨#[[1], [], []], rfl⟩ }

theorem ofView_decoyPool : CandidateGraph.ofView decoyPool = .ok decoyGraph := by
  cbv

theorem ofView_decoyPool_without :
    CandidateGraph.ofView (decoyPool.without [⟨2⟩]) = .ok exposedGraph := by
  cbv

/-- Room for 2000 units of weight, and for two considerations. -/
def Config.narrow : Config :=
  ⟨{ (default : SelectorConfig) with maxBlockWeight := 6000, maxCandidatesConsidered := 2 },
    .usual 1, default⟩

abbrev narrowRound (graph : CandidateGraph) : RoundSetting :=
  { selector := Config.narrow.toSelector, graph, confirmations := familyFunds, context := default }

theorem outcome_decoyGraph : (narrowRound decoyGraph).outcome =
    (⟨[3], [(0, .missingInputs), (1, .ancestorSkipped ⟨1⟩), (2, .ancestorSkipped ⟨1⟩)], [1, 3], 0⟩,
      .poolExhausted) := by
  let s := narrowRound decoyGraph
  let skips : List (Fin 4 × SkipReason) :=
    [(0, .missingInputs), (1, .ancestorSkipped ⟨1⟩), (2, .ancestorSkipped ⟨1⟩)]
  have hdecoy : s.judge decoyGraph.reduced (Ledger.empty.consider 1) 1 =
      (⟨[], skips, [1], 1⟩, none) := by
    have hcheck : s.selector.limits.check (s.usageOf []) (decoyGraph.reduced [] 1) = .fits := by
      decide +kernel
    have hmembers : decoyGraph.remaining [] 1 = [0, 1] :=
      List.mergeSort_of_pairwise (by decide +kernel)
    have hfound : (decoyGraph.remaining [] 1).findSome? s.refusal? = some (0, .missingInputs) := by
      rw [hmembers]
      decide +kernel
    rw [RoundSetting.judge_of_refused hcheck hfound]
    decide +kernel
  have hplain : s.judge decoyGraph.reduced (Ledger.consider ⟨[], skips, [1], 1⟩ 3) 3 =
      (⟨[3], skips, [1, 3], 0⟩, none) := by
    have hcheck : s.selector.limits.check (s.usageOf []) (decoyGraph.reduced [] 3) = .fits := by
      decide +kernel
    have hmembers : decoyGraph.remaining [] 3 = [3] :=
      List.mergeSort_of_pairwise (List.pairwise_singleton _ _)
    have hfound : (decoyGraph.remaining [] 3).findSome? s.refusal? = none := by
      rw [hmembers]
      decide +kernel
    rw [RoundSetting.judge_of_admitted hcheck hfound]
    show (Ledger.extend _ (decoyGraph.remaining [] 3), none) = _
    rw [hmembers]
    rfl
  calc s.greedy decoyGraph.reduced 2 .empty
      = s.greedy decoyGraph.reduced 1 ⟨[], skips, [1], 1⟩ :=
        RoundSetting.greedy_next 1 (by decide +kernel) hdecoy
    _ = s.greedy decoyGraph.reduced 0 ⟨[3], skips, [1, 3], 0⟩ :=
        RoundSetting.greedy_next 0 (by decide +kernel) hplain
    _ = _ := RoundSetting.greedy_of_none 0 (by decide +kernel)

theorem outcome_exposedGraph : (narrowRound exposedGraph).outcome =
    (⟨[], [(1, .limits 7100 408), (0, .missingInputs)], [1, 0], 2⟩,
      .considerationBudgetExhausted) := by
  let s := narrowRound exposedGraph
  have hheavy : s.judge exposedGraph.reduced (Ledger.empty.consider 1) 1 =
      (⟨[], [(1, .limits 7100 408)], [1], 1⟩, none) := by
    have hcheck : s.selector.limits.check (s.usageOf []) (exposedGraph.reduced [] 1) =
        .overflows 7100 408 := by
      decide +kernel
    rw [RoundSetting.judge_of_overflows hcheck]
    decide +kernel
  have hdoomed : s.judge exposedGraph.reduced
      (Ledger.consider ⟨[], [(1, .limits 7100 408)], [1], 1⟩ 0) 0 =
      (⟨[], [(1, .limits 7100 408), (0, .missingInputs)], [1, 0], 2⟩, none) := by
    have hcheck : s.selector.limits.check (s.usageOf []) (exposedGraph.reduced [] 0) = .fits := by
      decide +kernel
    have hmembers : exposedGraph.remaining [] 0 = [0] :=
      List.mergeSort_of_pairwise (List.pairwise_singleton _ _)
    have hfound : (exposedGraph.remaining [] 0).findSome? s.refusal? = some (0, .missingInputs) := by
      rw [hmembers]
      decide +kernel
    rw [RoundSetting.judge_of_refused hcheck hfound]
    decide +kernel
  have hplain : s.best? exposedGraph.reduced
      ⟨[], [(1, .limits 7100 408), (0, .missingInputs)], [1, 0], 2⟩ = some 2 := by
    decide +kernel
  calc s.greedy exposedGraph.reduced 2 .empty
      = s.greedy exposedGraph.reduced 1 ⟨[], [(1, .limits 7100 408)], [1], 1⟩ :=
        RoundSetting.greedy_next 1 (by decide +kernel) hheavy
    _ = s.greedy exposedGraph.reduced 0
          ⟨[], [(1, .limits 7100 408), (0, .missingInputs)], [1, 0], 2⟩ :=
        RoundSetting.greedy_next 0 (by decide +kernel) hdoomed
    _ = _ := RoundSetting.greedy_zero hplain

theorem decoyPool_accepted : decoyPool.Accepted :=
  ⟨_, ofView_decoyPool⟩

theorem decoyPool_leaves (gone : List Hash256) : decoyPool.Leaves gone (decoyPool.without gone) :=
  (PoolView.accepted_iff_consistent.mp decoyPool_accepted).leaves_without gone

theorem Config.valid_narrow : Config.narrow.Valid :=
  Config.validate_eq_ok_iff.mp rfl

/-- Without the decoy, the heavy candidate is considered before the one that both depend on, and
the plain one is not considered any more. -/
theorem Config.select_decoyPool_differs :
    Config.narrow.validate = .ok () ∧ decoyPool.Accepted ∧
    decoyPool.Leaves [⟨2⟩] (decoyPool.without [⟨2⟩]) ∧ decoyPool.ClosedBelow [⟨2⟩] ∧
    ∃ report again, Config.narrow.toSelector.select decoyPool familyFunds default = .ok report ∧
      report.stop = .poolExhausted ∧ (∀ h ∈ report.draft.hashes, h ∉ [⟨2⟩]) ∧
      Config.narrow.toSelector.select (decoyPool.without [⟨2⟩]) familyFunds default = .ok again ∧
      again.draft.hashes ≠ report.draft.hashes := by
  have hselect := (narrowRound decoyGraph).select_eq_outcome ofView_decoyPool
    (Config.valid_narrow.weightsFit rfl)
  have hwithout := (narrowRound exposedGraph).select_eq_outcome ofView_decoyPool_without
    (Config.valid_narrow.weightsFit rfl)
  rw [outcome_decoyGraph] at hselect
  rw [outcome_exposedGraph] at hwithout
  refine ⟨rfl, decoyPool_accepted, decoyPool_leaves _, ?_, _, _, hselect, rfl, ?_, hwithout, ?_⟩
  · unfold PoolView.ClosedBelow
    decide
  · decide
  · decide

/-- Without all that depends on the candidate that the gate refuses, and it, the block is the
same. -/
theorem Config.select_survives_decoyPool :
    Config.narrow.validate = .ok () ∧ decoyPool.Accepted ∧
    decoyPool.Leaves [⟨1⟩, ⟨2⟩, ⟨3⟩] (decoyPool.without [⟨1⟩, ⟨2⟩, ⟨3⟩]) ∧
    decoyPool.ClosedBelow [⟨1⟩, ⟨2⟩, ⟨3⟩] ∧
    ∃ report again, Config.narrow.toSelector.select decoyPool familyFunds default = .ok report ∧
      report.stop = .poolExhausted ∧ report.draft.hashes = [⟨4⟩] ∧
      Config.narrow.toSelector.select (decoyPool.without [⟨1⟩, ⟨2⟩, ⟨3⟩]) familyFunds default =
        .ok again ∧
      report.Survives again [⟨1⟩, ⟨2⟩, ⟨3⟩] ∧ report.Reproduces again := by
  have hselect := (narrowRound decoyGraph).select_eq_outcome ofView_decoyPool
    (Config.valid_narrow.weightsFit rfl)
  rw [outcome_decoyGraph] at hselect
  have hclosed : decoyPool.ClosedBelow [⟨1⟩, ⟨2⟩, ⟨3⟩] := by
    unfold PoolView.ClosedBelow
    decide
  have hleaves := decoyPool_leaves [⟨1⟩, ⟨2⟩, ⟨3⟩]
  have hconfig : Config.narrow.validate = .ok () := rfl
  obtain ⟨report, hreport, hsurvives, hreproduces⟩ :=
    Config.select_survives hconfig decoyPool_accepted familyFunds default
  obtain rfl := Except.ok.inj (hselect.symm.trans hreport)
  obtain ⟨again, hagain, hsame⟩ := hreproduces hleaves (by decide)
  obtain ⟨other, hother, hkept⟩ := hsurvives hleaves hclosed (by decide)
  obtain rfl := Except.ok.inj (hagain.symm.trans hother)
  exact ⟨hconfig, decoyPool_accepted, hleaves, hclosed, _, again, hselect, rfl, rfl, hagain, hkept, hsame⟩

end BlockProduction

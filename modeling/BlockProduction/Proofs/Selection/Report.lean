import BlockProduction.Proofs.Config
import BlockProduction.Proofs.Selection.Outcome

/-!
# What reports tell

Under a valid configuration every round over an accepted view ends with a
report.  Its block needs nothing but what stands before it and what is
confirmed, and every candidate is accounted for: it is included, or skipped for
a reason that is told, or left when the round ends early.
-/

namespace BlockProduction

theorem Config.Valid.weightsFit {config : Config} (h : config.Valid) {s : RoundSetting}
    (hselector : s.selector = config.toSelector) : s.WeightsFit := by
  have hle := UInt64.le_iff_toNat_le.mp h.weight_le
  have hmax : maxBlockWeight.toNat < maxWord := by decide
  rw [RoundSetting.WeightsFit, hselector]
  exact .inl (Nat.lt_of_le_of_lt hle hmax)

/-! ## A round of the family -/

/-- A round with the usual settings. -/
abbrev familyRound : RoundSetting :=
  { selector := (Config.usual 1).toSelector
    graph := familyGraph
    confirmations := familyFunds
    context := default }

/-- The child is considered first, and its parent comes with it. -/
theorem outcome_familyRound : familyRound.outcome = (⟨[0, 1], [], [1], 0⟩, .poolExhausted) := by
  let s := familyRound
  have hchild : s.judge familyGraph.reduced (Ledger.empty.consider 1) 1 =
      (⟨[0, 1], [], [1], 0⟩, none) := by
    have hcheck : s.selector.limits.check (s.usageOf []) (familyGraph.reduced [] 1) = .fits := by
      decide +kernel
    have hmembers : familyGraph.remaining [] 1 = [0, 1] :=
      List.mergeSort_of_pairwise (by decide +kernel)
    have hfound : (familyGraph.remaining [] 1).findSome? s.refusal? = none := by
      rw [hmembers]
      decide +kernel
    rw [RoundSetting.judge_of_admitted hcheck hfound]
    show (Ledger.extend _ (familyGraph.remaining [] 1), none) = _
    rw [hmembers]
    rfl
  calc s.greedy familyGraph.reduced 1000000 .empty
      = s.greedy familyGraph.reduced 999999 ⟨[0, 1], [], [1], 0⟩ :=
        RoundSetting.greedy_next 999999 (by decide +kernel) hchild
    _ = _ := RoundSetting.greedy_of_none 999999 (by decide +kernel)

/-- Whatever a report of the family says, its block has the parent and then the child. -/
theorem select_familyPool {P : SelectionReport → Prop}
    (h : ∃ report, (Config.usual 1).toSelector.select familyPool familyFunds default = .ok report ∧
      P report) :
    ∃ report, (Config.usual 1).toSelector.select familyPool familyFunds default = .ok report ∧
      report.draft.hashes = [⟨1⟩, ⟨2⟩] ∧ P report := by
  have hvalid : (Config.usual 1).Valid := Config.validate_eq_ok_iff.mp rfl
  have hselect := familyRound.select_eq_outcome ofView_familyPool (hvalid.weightsFit rfl)
  obtain ⟨report, hreport, hholds⟩ := h
  have hsame := Except.ok.inj (hselect.symm.trans hreport)
  refine ⟨report, hreport, ?_, hholds⟩
  rw [← hsame, outcome_familyRound]
  rfl

/-! ## Self-contained blocks -/

/-- Whatever a transaction of the block depends on stands before it or is confirmed. -/
structure SelectionReport.SelfContained (report : SelectionReport) (view : PoolView)
    (confirmations : Confirmations) : Prop where
  distinct : report.draft.hashes.Nodup
  ancestors_before : ∀ {i : Nat} {tx : Candidate}, report.draft.transactions[i]? = some tx →
    ∃ ancestors, view.ancestors? tx.hash = some ancestors ∧
      ∀ h ∈ ancestors, ∃ j < i, report.draft.hashes[j]? = some h
  inputs_available : ∀ {i : Nat} {tx : Candidate}, report.draft.transactions[i]? = some tx →
    ∀ input ∈ tx.inputs, (∃ j < i, report.draft.hashes[j]? = some input.prevout.hash) ∨
      (confirmations input.prevout).isSome = true

namespace Ledger.Lawful

variable {g : CandidateGraph} {l : Ledger g.size} {i j : Nat} {id a : Fin g.size}

theorem lt_of_ancestor (hg : g.Consistent) (h : l.Lawful) (hid : l.block[i]? = some id)
    (ha : a ∈ g.ancestorsOf id) (hj : l.block[j]? = some a) : j < i := by
  obtain ⟨hjlt, hja⟩ := List.getElem?_eq_some_iff.mp hj
  obtain ⟨hilt, hiid⟩ := List.getElem?_eq_some_iff.mp hid
  rcases Nat.lt_trichotomy j i with hlt | heq | hgt
  · exact hlt
  · subst heq
    rw [← hiid, hja] at ha
    exact absurd ha (hg.not_mem_ancestors_self a)
  · have hordered := List.pairwise_iff_getElem.mp h.block_ordered i j hilt hjlt hgt
    rw [hiid, hja] at hordered
    exact absurd ha hordered

/-- Ancestors stand at earlier positions. -/
theorem ancestor_before (hg : g.Consistent) (h : l.Lawful) (hid : l.block[i]? = some id)
    (ha : a ∈ g.ancestorsOf id) : ∃ j < i, l.block[j]? = some a := by
  obtain ⟨j, hj⟩ := List.getElem?_of_mem (h.block_closed (List.mem_of_getElem? hid) ha)
  exact ⟨j, h.lt_of_ancestor hg hid ha hj, hj⟩

end Ledger.Lawful

namespace RoundSetting

variable {s : RoundSetting} {view : PoolView} {l : Ledger s.graph.size} {stop : StopReason}

theorem hashes_reportOf : (s.reportOf l stop).draft.hashes = l.block.map s.graph.hash := by
  simp only [reportOf, draftOf, Draft.hashes, List.map_map]
  rfl

theorem skipped_reportOf :
    (s.reportOf l stop).skipped.map (·.hash) = l.skipped.map s.graph.hash := by
  simp [reportOf, Ledger.skipped, Function.comp_def]

theorem selfContained_outcome (hview : CandidateGraph.ofView view = .ok s.graph) :
    (s.reportOf s.outcome.1 s.outcome.2).SelfContained view s.confirmations := by
  have hg := CandidateGraph.consistent_of_ofView hview
  have hrepresents := CandidateGraph.represents_of_ofView hview
  have hlawful := (settled_outcome hg).lawful
  have hbefore : ∀ {i : Nat} {id a}, s.outcome.1.block[i]? = some id → a ∈ s.graph.ancestorsOf id →
      ∃ j < i, (s.reportOf s.outcome.1 s.outcome.2).draft.hashes[j]? = some (s.graph.hash a) := by
    intro i id a hid ha
    obtain ⟨j, hj, hfound⟩ := hlawful.ancestor_before hg hid ha
    refine ⟨j, hj, ?_⟩
    rw [hashes_reportOf, List.getElem?_map, hfound]
    rfl
  have hmember : ∀ {i : Nat} {tx},
      (s.reportOf s.outcome.1 s.outcome.2).draft.transactions[i]? = some tx →
      ∃ id, s.outcome.1.block[i]? = some id ∧ s.graph.tx id = tx := by
    intro i tx htx
    simp only [reportOf, draftOf, List.getElem?_map] at htx
    exact Option.map_eq_some_iff.mp htx
  refine ⟨?_, ?_, ?_⟩
  · rw [hashes_reportOf]
    exact hg.nodup_map_hash hlawful.block_nodup
  · intro i tx htx
    obtain ⟨id, hid, rfl⟩ := hmember htx
    obtain ⟨related, hrelated, hiff⟩ := hrepresents.ancestors id
    refine ⟨related, hrelated, ?_⟩
    intro h hh
    obtain ⟨a, ha, rfl⟩ := (hiff h).mp hh
    exact hbefore hid ha
  · intro i tx htx input hinput
    obtain ⟨id, hid, rfl⟩ := hmember htx
    have hgate := admitted_outcome s id (List.mem_of_getElem? hid)
    rcases confirmed_of_gate? hgate hinput with hknown | hconfirmed
    · obtain ⟨parent, hparent⟩ := Option.isSome_iff_exists.mp hknown
      rw [← CandidateGraph.hash_of_idOf? hparent]
      exact .inl (hbefore hid (hg.spent_mem_ancestors hinput hparent))
    · exact .inr hconfirmed

end RoundSetting

theorem Config.select_selfContained {config : Config} {view : PoolView}
    (hconfig : config.validate = .ok ()) (hview : view.Accepted) (confirmations : Confirmations)
    (context : RoundContext) :
    ∃ report, config.toSelector.select view confirmations context = .ok report ∧
      report.SelfContained view confirmations := by
  obtain ⟨graph, hgraph⟩ := hview
  let s : RoundSetting := { selector := config.toSelector, graph, confirmations, context }
  have hweights : s.WeightsFit := (Config.validate_eq_ok_iff.mp hconfig).weightsFit rfl
  exact ⟨_, s.select_eq_outcome hgraph hweights, RoundSetting.selfContained_outcome hgraph⟩

theorem Config.select_selfContained_familyPool :
    (Config.usual 1).validate = .ok () ∧ familyPool.Accepted ∧
    ∃ report, (Config.usual 1).toSelector.select familyPool familyFunds default = .ok report ∧
      report.draft.hashes = [⟨1⟩, ⟨2⟩] ∧ report.SelfContained familyPool familyFunds :=
  ⟨rfl, familyPool_accepted,
    select_familyPool (Config.select_selfContained rfl familyPool_accepted _ _)⟩

/-! ## Accounts of all candidates -/

namespace SelectionReport

/-- The hashes that a report tells about, included ones first. -/
def settled (report : SelectionReport) : List Hash256 :=
  report.draft.hashes ++ report.skipped.map (·.hash)

/-- Every candidate is included, skipped or left, once and for a reason, within a number of
considerations. -/
structure Accounted (report : SelectionReport) (view : PoolView) (limit : Nat) : Prop where
  distinct : report.settled.Nodup
  candidates : ∀ h ∈ report.settled, h ∈ view.candidates.map (·.hash)
  considered_le : report.considered ≤ min limit view.candidates.length
  exhausted : report.stop = .poolExhausted → ∀ tx ∈ view.candidates, tx.hash ∈ report.settled
  spent : report.stop = .considerationBudgetExhausted →
    report.considered = limit ∧ ∃ tx ∈ view.candidates, tx.hash ∉ report.settled
  skipped_closed : ∀ skip ∈ report.skipped, ∃ descendants,
    view.descendants? skip.hash = some descendants ∧
      ∀ d ∈ descendants, d ∈ report.skipped.map (·.hash)
  explained : ∀ {i : Nat} {skip : Skip} {ancestor : Hash256}, report.skipped[i]? = some skip →
    skip.reason = .ancestorSkipped ancestor →
    (∃ ancestors, view.ancestors? skip.hash = some ancestors ∧ ancestor ∈ ancestors) ∧
    ∃ j < i, ∃ earlier, report.skipped[j]? = some earlier ∧ earlier.hash = ancestor ∧
      earlier.reason.Direct

end SelectionReport

namespace RoundSetting

variable {s : RoundSetting} {view : PoolView} {l : Ledger s.graph.size} {stop : StopReason}

theorem settled_reportOf :
    (s.reportOf l stop).settled = (l.block ++ l.skipped).map s.graph.hash := by
  rw [SelectionReport.settled, hashes_reportOf, skipped_reportOf, List.map_append]

theorem hash_mem_settled_iff (hg : s.graph.Consistent) {id : Fin s.graph.size} :
    s.graph.hash id ∈ (s.reportOf l stop).settled ↔ id ∈ l.block ∨ id ∈ l.skipped := by
  rw [settled_reportOf, ← List.mem_append]
  exact List.mem_map_of_injective fun a b => hg.hash_inj

theorem Settled.nodup (h : Settled l) : (l.block ++ l.skipped).Nodup := by
  refine List.nodup_append.mpr ⟨h.lawful.block_nodup, h.lawful.skipped_nodup, ?_⟩
  intro a ha b hb heq
  subst heq
  exact h.lawful.not_skipped ha hb

theorem Settled.isOpen_eq_false_iff (h : Settled l) {id : Fin s.graph.size} :
    l.isOpen id = false ↔ id ∈ l.block ∨ id ∈ l.skipped := by
  rw [← Bool.not_eq_true, Ledger.isOpen_iff]
  constructor
  · intro hclosed
    by_cases hconsidered : id ∈ l.considered
    · exact h.considered_settled id hconsidered
    · tauto
  · tauto

theorem Settled.considered_le (h : Settled l) : l.considered.length ≤ s.graph.size := by
  have hle := (List.subperm_of_subset h.considered_nodup
    fun id _ => CandidateGraph.mem_ids id).length_le
  rwa [CandidateGraph.ids, List.length_finRange] at hle

theorem entry_of_skipped {i : Nat} {skip : Skip} (h : (s.reportOf l stop).skipped[i]? = some skip) :
    ∃ id, l.skips[i]? = some (id, skip.reason) ∧ s.graph.hash id = skip.hash := by
  simp only [reportOf, List.getElem?_map] at h
  obtain ⟨entry, hentry, rfl⟩ := Option.map_eq_some_iff.mp h
  exact ⟨entry.1, hentry, rfl⟩

theorem skipped_closed_reportOf (hrepresents : s.graph.Represents view) (hl : l.Lawful)
    {skip : Skip} (hskip : skip ∈ (s.reportOf l stop).skipped) :
    ∃ descendants, view.descendants? skip.hash = some descendants ∧
      ∀ d ∈ descendants, d ∈ (s.reportOf l stop).skipped.map (·.hash) := by
  obtain ⟨i, hi⟩ := List.getElem?_of_mem hskip
  obtain ⟨id, hentry, hhash⟩ := entry_of_skipped hi
  obtain ⟨related, hrelated, hiff⟩ := hrepresents.descendants id
  have hin : id ∈ l.skipped := List.mem_map.mpr ⟨_, List.mem_of_getElem? hentry, rfl⟩
  rw [← hhash, skipped_reportOf]
  refine ⟨related, hrelated, ?_⟩
  intro h hh
  obtain ⟨d, hd, rfl⟩ := (hiff h).mp hh
  exact List.mem_map_of_mem (hl.skipped_closed hin hd)

theorem explained_reportOf (hrepresents : s.graph.Represents view) (hl : l.Lawful) {i : Nat}
    {skip : Skip} {ancestor : Hash256} (hi : (s.reportOf l stop).skipped[i]? = some skip)
    (hreason : skip.reason = .ancestorSkipped ancestor) :
    (∃ ancestors, view.ancestors? skip.hash = some ancestors ∧ ancestor ∈ ancestors) ∧
    ∃ j < i, ∃ earlier, (s.reportOf l stop).skipped[j]? = some earlier ∧
      earlier.hash = ancestor ∧ earlier.reason.Direct := by
  obtain ⟨id, hentry, hhash⟩ := entry_of_skipped hi
  rw [hreason] at hentry
  obtain ⟨j, hj, a, reason, hearlier, hdirect, ha, rfl⟩ := hl.explained hentry
  obtain ⟨related, hrelated, hiff⟩ := hrepresents.ancestors id
  rw [← hhash]
  refine ⟨⟨related, hrelated, (hiff _).mpr ⟨a, ha, rfl⟩⟩, j, hj, ⟨s.graph.hash a, reason⟩, ?_,
    rfl, hdirect⟩
  simp only [reportOf, List.getElem?_map, hearlier]
  rfl

theorem accounted_outcome (hview : CandidateGraph.ofView view = .ok s.graph) :
    (s.reportOf s.outcome.1 s.outcome.2).Accounted view s.selector.maxConsidered.toNat := by
  have hg := CandidateGraph.consistent_of_ofView hview
  have hrepresents := CandidateGraph.represents_of_ofView hview
  have hsettled := settled_outcome (s := s) hg
  have hends := ends_outcome s
  refine ⟨?_, ?_, ?_, ?_, ?_, fun _ => skipped_closed_reportOf hrepresents hsettled.lawful,
    fun {_ _ _} => explained_reportOf hrepresents hsettled.lawful⟩
  · rw [settled_reportOf]
    exact hg.nodup_map_hash hsettled.nodup
  · intro h hh
    rw [settled_reportOf] at hh
    obtain ⟨id, -, rfl⟩ := List.mem_map.mp hh
    exact List.mem_map.mpr ⟨s.graph.tx id, hrepresents.mem_candidates_iff.mpr ⟨id, rfl⟩, rfl⟩
  · have hle := hends.considered_le
    rw [Nat.zero_add] at hle
    rw [hrepresents.length_candidates]
    exact Nat.le_min.mpr ⟨hle, hsettled.considered_le⟩
  · intro hstop tx htx
    obtain ⟨id, rfl⟩ := hrepresents.mem_candidates_iff.mp htx
    refine (hash_mem_settled_iff hg).mpr ?_
    exact hsettled.isOpen_eq_false_iff.mp (hends.exhausted hstop id)
  · intro hstop
    obtain ⟨hspent, id, hopen⟩ := hends.spent hstop
    refine ⟨hspent.trans (Nat.zero_add _), s.graph.tx id,
      hrepresents.mem_candidates_iff.mpr ⟨id, rfl⟩, ?_⟩
    intro hin
    have hclosed := hsettled.isOpen_eq_false_iff.mpr ((hash_mem_settled_iff hg).mp hin)
    rw [hclosed] at hopen
    contradiction

end RoundSetting

theorem Config.select_accounted {config : Config} {view : PoolView}
    (hconfig : config.validate = .ok ()) (hview : view.Accepted) (confirmations : Confirmations)
    (context : RoundContext) :
    ∃ report, config.toSelector.select view confirmations context = .ok report ∧
      report.Accounted view config.selector.maxCandidatesConsidered.toNat := by
  obtain ⟨graph, hgraph⟩ := hview
  let s : RoundSetting := { selector := config.toSelector, graph, confirmations, context }
  have hweights : s.WeightsFit := (Config.validate_eq_ok_iff.mp hconfig).weightsFit rfl
  exact ⟨_, s.select_eq_outcome hgraph hweights, RoundSetting.accounted_outcome hgraph⟩

theorem Config.select_accounted_familyPool :
    (Config.usual 1).validate = .ok () ∧ familyPool.Accepted ∧
    ∃ report, (Config.usual 1).toSelector.select familyPool familyFunds default = .ok report ∧
      report.draft.hashes = [⟨1⟩, ⟨2⟩] ∧ report.Accounted familyPool 1000000 :=
  ⟨rfl, familyPool_accepted,
    select_familyPool (Config.select_accounted rfl familyPool_accepted _ _)⟩

end BlockProduction

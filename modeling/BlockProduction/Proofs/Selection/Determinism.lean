import BlockProduction.Proofs.Pool.Views
import BlockProduction.Proofs.Selection.Report

/-!
# Pools that present themselves differently

Two pools with the same candidates and the same relations may list them in
different orders, and a relation may repeat itself.  Candidates are numbered by
their hashes and relations are kept as increasing lists of numbers, so the graph
is the same, and with it the whole round.
-/

namespace BlockProduction

namespace PoolView

/-- Two answers name the same relatives, or both name none at all. -/
def SameRelatives : Option (List Hash256) → Option (List Hash256) → Prop :=
  Option.Rel fun related others => ∀ x, x ∈ related ↔ x ∈ others

/-- Two views of the same candidates with the same relations. -/
structure SameAs (view other : PoolView) : Prop where
  candidates_perm : view.candidates.Perm other.candidates
  ancestors : ∀ h ∈ view.hashes, SameRelatives (view.ancestors? h) (other.ancestors? h)
  descendants : ∀ h ∈ view.hashes, SameRelatives (view.descendants? h) (other.descendants? h)

theorem SameRelatives.symm {related? others? : Option (List Hash256)}
    (h : SameRelatives related? others?) : SameRelatives others? related? := by
  cases h with
  | none => exact .none
  | some hsame => exact .some fun x => (hsame x).symm

theorem SameRelatives.mem_getD_iff {related? others? : Option (List Hash256)}
    (h : SameRelatives related? others?) (x : Hash256) :
    x ∈ related?.getD [] ↔ x ∈ others?.getD [] := by
  cases h with
  | none => exact Iff.rfl
  | some hsame => exact hsame x

namespace SameAs

variable {view other : PoolView} (h : view.SameAs other)
include h

theorem hashes_perm : view.hashes.Perm other.hashes :=
  h.candidates_perm.map _

theorem symm : other.SameAs view where
  candidates_perm := h.candidates_perm.symm
  ancestors := fun x hx => (h.ancestors x (h.hashes_perm.mem_iff.mpr hx)).symm
  descendants := fun x hx => (h.descendants x (h.hashes_perm.mem_iff.mpr hx)).symm

end SameAs

end PoolView

namespace CandidateGraph

/-- Numbers do not depend on the order of the listed hashes, nor on repetitions. -/
theorem numbersOf_congr {n : Nat} {txs : Vector Candidate n} {related others : List Hash256}
    (h : ∀ x, x ∈ related ↔ x ∈ others) : numbersOf txs related = numbersOf txs others := by
  apply (numbersOf_increasing txs related).eq_of_mem_iff (numbersOf_increasing txs others)
  intro id
  rw [mem_numbersOf, mem_numbersOf, h]

theorem map_numbersOf_congr {n : Nat} {txs : Vector Candidate n}
    {related? others? : Hash256 → Option (List Hash256)}
    (h : ∀ tx ∈ txs, PoolView.SameRelatives (related? tx.hash) (others? tx.hash)) :
    (txs.map fun tx => numbersOf txs ((related? tx.hash).getD [])) =
      txs.map fun tx => numbersOf txs ((others? tx.hash).getD []) := by
  apply Vector.map_congr_left
  intro tx htx
  exact numbersOf_congr (h tx htx).mem_getD_iff

theorem relationFault?_eq_none_congr {known : List Hash256} {x : Hash256}
    {related? others? : Option (List Hash256)} (h : PoolView.SameRelatives related? others?) :
    relationFault? known x related? = none ↔ relationFault? known x others? = none := by
  rw [relationFault?_eq_none_iff, relationFault?_eq_none_iff]
  cases h with
  | none => simp
  | some hsame => simp [hsame]

section

variable {view other : PoolView} (h : view.SameAs other)
include h

/-- Candidates that are told apart by their hashes have one order. -/
theorem sorted_eq_of_sameAs (hdistinct : view.hashes.Nodup) : sorted view = sorted other := by
  have hperm : (sorted view).Perm (sorted other) :=
    (List.mergeSort_perm _ _).trans (h.candidates_perm.trans (List.mergeSort_perm _ _).symm)
  refine hperm.eq_of_pairwise ?_ (sorted_pairwise view) (sorted_pairwise other)
  intro a b ha hb hab hba
  have hinview : b ∈ view.candidates := mem_sorted.mp (hperm.mem_iff.mpr hb)
  exact List.inj_on_of_nodup_map hdistinct (mem_sorted.mp ha) hinview
    (Hash256.le_antisymm hab hba)

variable {txs : List Candidate} (htxs : ∀ tx ∈ txs, tx.hash ∈ view.hashes)
include htxs

theorem relationsFault?_of_sameAs (hfault : relationsFault? view txs = none) :
    relationsFault? other txs = none := by
  apply List.findSome?_eq_none_iff.mpr
  intro tx htx
  have hpassed := List.findSome?_eq_none_iff.mp hfault tx htx
  obtain ⟨hancestors, hdescendants⟩ := Option.or_eq_none_iff.mp hpassed
  apply Option.or_eq_none_iff.mpr
  constructor
  · exact (relationFault?_eq_none_congr (h.ancestors _ (htxs tx htx))).mp hancestors
  · exact (relationFault?_eq_none_congr (h.descendants _ (htxs tx htx))).mp hdescendants

theorem build_eq_of_sameAs : build view txs = build other txs := by
  have hnodes : ∀ tx ∈ (⟨txs.toArray, List.size_toArray⟩ : Vector Candidate txs.length),
      tx.hash ∈ view.hashes := by
    intro tx htx
    exact htxs tx (by simpa using htx)
  dsimp only [build]
  rw [map_numbersOf_congr fun tx htx => h.ancestors _ (hnodes tx htx),
    map_numbersOf_congr fun tx htx => h.descendants _ (hnodes tx htx)]

end

/-- A view that presents an accepted pool in another way gives the same graph. -/
theorem ofView_of_sameAs {view other : PoolView} {g : CandidateGraph} (h : view.SameAs other)
    (hview : ofView view = .ok g) : ofView other = .ok g := by
  obtain ⟨herror, hrelations, hfault, hbuild⟩ := ofView_eq_ok_iff.mp hview
  have hdistinct : view.hashes.Nodup :=
    (PoolView.accepted_iff_consistent.mp ⟨g, hview⟩).distinct
  have hsorted : sorted view = sorted other := sorted_eq_of_sameAs h hdistinct
  have hknown : ∀ tx ∈ sorted view, tx.hash ∈ view.hashes :=
    fun tx htx => List.mem_map_of_mem (mem_sorted.mp htx)
  rw [ofView_eq_ok_iff, ← hsorted, ← build_eq_of_sameAs h hknown]
  exact ⟨herror, relationsFault?_of_sameAs h hknown hrelations, hfault, hbuild⟩

end CandidateGraph

/-- A round over the same pool fails again, or ends with the same report. -/
theorem Selector.select_deterministic (selector : Selector) {view other : PoolView}
    (h : view.SameAs other) (confirmations : Confirmations) (context : RoundContext) :
    (∃ e e', selector.select view confirmations context = .error e ∧
      selector.select other confirmations context = .error e') ∨
    ∃ report, selector.select view confirmations context = .ok report ∧
      selector.select other confirmations context = .ok report := by
  cases hview : CandidateGraph.ofView view with
  | ok graph =>
      have hother := CandidateGraph.ofView_of_sameAs h hview
      have hsame : selector.select view confirmations context =
          selector.select other confirmations context := by
        simp only [select, hview, hother]
      rw [← hsame]
      cases selector.select view confirmations context with
      | error e => exact .inl ⟨e, e, rfl, rfl⟩
      | ok report => exact .inr ⟨report, rfl, rfl⟩
  | error e =>
      cases hother : CandidateGraph.ofView other with
      | ok graph =>
          have hback := CandidateGraph.ofView_of_sameAs h.symm hother
          rw [hview] at hback
          contradiction
      | error e' =>
          refine .inl ⟨e, e', ?_, ?_⟩
          · simp only [select, hview]
          · simp only [select, hother]

/-! ## The family the other way round -/

/-- The family with the parent first, and with every relative listed twice. -/
def familyPoolReversed : PoolView :=
  { candidates := familyPool.candidates.reverse
    ancestors? := fun h => (familyPool.ancestors? h).map fun related => related ++ related
    descendants? := fun h => (familyPool.descendants? h).map fun related => related ++ related }

theorem familyPool_sameAs : familyPool.SameAs familyPoolReversed := by
  have hdoubled : ∀ related? : Option (List Hash256),
      PoolView.SameRelatives related? (related?.map fun related => related ++ related) := by
    intro related?
    cases related? with
    | none => exact .none
    | some related => exact .some fun x => by simp
  exact ⟨(List.reverse_perm _).symm, fun h _ => hdoubled _, fun h _ => hdoubled _⟩

theorem Selector.select_deterministic_familyPool :
    familyPool.SameAs familyPoolReversed ∧ familyPoolReversed.candidates ≠ familyPool.candidates ∧
    ∃ report, (Config.usual 1).toSelector.select familyPool familyFunds default = .ok report ∧
      (Config.usual 1).toSelector.select familyPoolReversed familyFunds default = .ok report := by
  refine ⟨familyPool_sameAs, by decide, ?_⟩
  obtain ⟨graph, hgraph⟩ := familyPool_accepted
  have hvalid : (Config.usual 1).Valid := Config.validate_eq_ok_iff.mp rfl
  have hselect := RoundSetting.select_eq_outcome
    ⟨(Config.usual 1).toSelector, graph, familyFunds, default⟩ hgraph (hvalid.weightsFit rfl)
  rcases select_deterministic (Config.usual 1).toSelector familyPool_sameAs familyFunds default with
    ⟨e, e', herror, -⟩ | hreports
  · nomatch hselect.symm.trans herror
  · exact hreports

end BlockProduction

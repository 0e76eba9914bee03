import BlockProduction.Proofs.Pool.Closure
import BlockProduction.Proofs.Pool.Views
import BlockProduction.Proofs.Selection.Queue

/-!
# The order of presentation

A graph can be built of a snapshot if every candidate has weight and none spends
an output of its own, and only then.  The queue of that graph is emptied in the
order in which the snapshot presents its candidates: both add up the same
packages, also where the sums stay at the end of their range, and both compare
exact fee rates and then hashes.
-/

namespace BlockProduction

/-! ## Snapshots as views -/

namespace Snapshot

variable {txs : List Candidate} {s : Snapshot}

theorem Built.candidates_perm {closed : Closed} (h : s.Built txs closed) :
    s.candidates.Perm txs := by
  obtain ⟨sorted, hcandidates, hperm, -⟩ := h.presented
  have hentries : (s.entries txs).map (·.1) = txs := by
    simp [entries, Function.comp_def]
  rw [hcandidates, ← hentries]
  exact hperm.map (·.1)

namespace Shows

variable (h : s.Shows txs)
include h

theorem mem_ancestorsOf {d a : Hash256} : a ∈ s.view.ancestorsOf d ↔ DependsOn txs d a := by
  by_cases hd : d ∈ txs.map (·.hash)
  · obtain ⟨related, hrelated, -, hiff⟩ := h.ancestors d hd
    rw [PoolView.ancestorsOf, hrelated, Option.getD_some, hiff]
  · rw [PoolView.ancestorsOf, (h.unknown d hd).1, Option.getD_none]
    have hnone : ¬DependsOn txs d a := fun hdepends => hd hdepends.mem_left
    simp [hnone]

theorem mem_descendantsOf {d a : Hash256} : d ∈ s.view.descendantsOf a ↔ DependsOn txs d a := by
  by_cases ha : a ∈ txs.map (·.hash)
  · obtain ⟨related, hrelated, -, hiff⟩ := h.descendants a ha
    rw [PoolView.descendantsOf, hrelated, Option.getD_some, hiff]
  · rw [PoolView.descendantsOf, (h.unknown a ha).2, Option.getD_none]
    have hnone : ¬DependsOn txs d a := fun hdepends => ha hdepends.mem_right
    simp [hnone]

/-- Relations along chains of spends fit together, unless a candidate spends itself: that is no
chain, but a graph wants the candidate among its own ancestors. -/
theorem consistent_iff (hperm : s.candidates.Perm txs) (hdistinct : (txs.map (·.hash)).Nodup)
    (hacyclic : ∀ x, ¬DependsOn txs x x) : s.view.Consistent ↔
      (∀ tx ∈ txs, tx.weight ≠ 0) ∧
        ∀ tx ∈ txs, ∀ input ∈ tx.inputs, input.prevout.hash ≠ tx.hash := by
  have hhashes : s.view.hashes.Perm (txs.map (·.hash)) := List.Perm.map Candidate.hash hperm
  have hmem : ∀ x, x ∈ s.view.hashes ↔ x ∈ txs.map (·.hash) := fun x => hhashes.mem_iff
  have hother : ∀ {d a}, DependsOn txs d a → a ≠ d ∧ d ≠ a := by
    intro d a hdepends
    have hne : a ≠ d := by
      rintro rfl
      exact hacyclic a hdepends
    exact ⟨hne, hne.symm⟩
  constructor
  · intro hconsistent
    refine ⟨fun tx htx => hconsistent.weight_ne_zero tx (hperm.mem_iff.mpr htx), ?_⟩
    intro tx htx input hinput hself
    have hspent : input.prevout.hash ∈ s.view.hashes := by
      rw [hmem, hself]
      exact List.mem_map_of_mem htx
    have hlisted := hconsistent.spent_mem_ancestors tx (hperm.mem_iff.mpr htx) input hinput hspent
    rw [h.mem_ancestorsOf, hself] at hlisted
    exact hacyclic tx.hash hlisted
  · rintro ⟨hweight, hself⟩
    exact {
      distinct := hhashes.nodup_iff.mpr hdistinct
      weight_ne_zero := fun tx htx => hweight tx (hperm.mem_iff.mp htx)
      ancestors_known := by
        intro d hd
        obtain ⟨related, hrelated, -, hiff⟩ := h.ancestors d ((hmem d).mp hd)
        refine ⟨related, hrelated, fun a ha => ?_⟩
        have hdepends := (hiff a).mp ha
        exact ⟨(hother hdepends).1, (hmem a).mpr hdepends.mem_right⟩
      descendants_known := by
        intro a ha
        obtain ⟨related, hrelated, -, hiff⟩ := h.descendants a ((hmem a).mp ha)
        refine ⟨related, hrelated, fun d hd => ?_⟩
        have hdepends := (hiff d).mp hd
        exact ⟨(hother hdepends).2, (hmem d).mpr hdepends.mem_left⟩
      mem_descendants_iff := by
        intro a d _ _
        rw [h.mem_descendantsOf, h.mem_ancestorsOf]
      ancestors_trans := by
        intro a b c _ hab hbc
        rw [h.mem_ancestorsOf] at hab hbc ⊢
        exact hbc.trans hab
      spent_mem_ancestors := by
        intro tx htx input hinput hspent
        have htx := hperm.mem_iff.mp htx
        rw [h.mem_ancestorsOf]
        exact .single
          ⟨hself tx htx input hinput, (hmem _).mp hspent, tx, htx, rfl, input, hinput, rfl⟩ }

end Shows

/-! ## Packages -/

section Packages

variable {g : CandidateGraph} (hg : g.Consistent) (hrepresents : g.Represents s.view)
  (hshows : s.Shows txs)
include hg hrepresents hshows

/-- Numbers follow hashes, so that both list the same ancestors in the same order. -/
theorem lookup_ancestors (id : Fin g.size) (hid : g.hash id ∈ txs.map (·.hash)) :
    s.ancestors.lookup (g.hash id) = some ((g.ancestorsOf id).map g.hash) := by
  obtain ⟨related, hrelated, hincreasing, -⟩ := hshows.ancestors (g.hash id) hid
  have hmem : ∀ x, x ∈ related ↔ x ∈ (g.ancestorsOf id).map g.hash := by
    obtain ⟨same, hsame, hiff⟩ := hrepresents.ancestors id
    rw [hrelated] at hsame
    obtain rfl := Option.some.inj hsame
    intro x
    rw [hiff, List.mem_map]
  have hnumbered : Hash256.Increasing ((g.ancestorsOf id).map g.hash) :=
    List.pairwise_map.mpr ((hg.ancestors_increasing id).imp hg.hash_lt)
  have hperm : related.Perm ((g.ancestorsOf id).map g.hash) :=
    (List.perm_ext_iff_of_nodup hincreasing.nodup hnumbered.nodup).mpr hmem
  have heq : related = (g.ancestorsOf id).map g.hash := by
    refine hperm.eq_of_pairwise ?_ hincreasing hnumbered
    intro a b _ _ hab hba
    omega
  rw [← heq]
  exact hrelated

theorem fullPackage_eq (hdistinct : (txs.map (·.hash)).Nodup) (hknown : ∀ id, g.tx id ∈ txs)
    (id : Fin g.size) : fullPackage txs s.ancestors (g.tx id) = g.fullPackage id := by
  have hlookup : s.ancestors.lookup (g.tx id).hash = some ((g.ancestorsOf id).map g.hash) :=
    lookup_ancestors hg hrepresents hshows id (List.mem_map_of_mem (hknown id))
  have hfind : ∀ a, txs.find? (fun other => other.hash = g.hash a) = some (g.tx a) := fun a =>
    find?_hash_eq_some hdistinct (hknown a)
  rw [fullPackage, hlookup, Option.getD_some, List.foldl_map]
  simp only [hfind]
  rfl

end Packages

/-! ## The same order -/

section Order

variable {g : CandidateGraph} (hg : g.Consistent)
include hg

/-- Candidates with their packages are presented in the order of their keys. -/
theorem precedes_eq (a b : Fin g.size) :
    precedes (g.tx a, g.fullPackage a) (g.tx b, g.fullPackage b) =
      decide ((RankedQueue.keyOf g (g.fullPackage a) a).standing ≤
        (RankedQueue.keyOf g (g.fullPackage b) b).standing) := by
  have hhash : (RankedQueue.keyOf g (g.fullPackage a) a).hash =
      (RankedQueue.keyOf g (g.fullPackage b) b).hash → a = b := hg.hash_inj
  have hprecedes : precedes (g.tx a, g.fullPackage a) (g.tx b, g.fullPackage b) =
      ((RankedQueue.keyOf g (g.fullPackage a) a).order
        (RankedQueue.keyOf g (g.fullPackage b) b)).isLE := by
    rw [RankKey.order_eq hhash]
    rfl
  rw [hprecedes, RankKey.order_eq_compare (RankedQueue.fullPackage_weight_ne_zero hg a)
    (RankedQueue.fullPackage_weight_ne_zero hg b) hhash, Bool.eq_iff_iff, decide_eq_true_eq,
    ← compare_le_iff_le, Ordering.isLE_iff_ne_gt]

/-- Presentation is an order of the candidates of a graph. -/
theorem orders_entries (ids : List (Fin g.size)) :
    Orders precedes (ids.map fun id => (g.tx id, g.fullPackage id)) where
  total := by
    intro a ha b hb
    obtain ⟨i, -, rfl⟩ := List.mem_map.mp ha
    obtain ⟨j, -, rfl⟩ := List.mem_map.mp hb
    rw [precedes_eq hg, precedes_eq hg, Bool.or_eq_true, decide_eq_true_iff, decide_eq_true_iff]
    exact le_total _ _
  trans := by
    intro a ha b hb c hc hab hbc
    obtain ⟨i, -, rfl⟩ := List.mem_map.mp ha
    obtain ⟨j, -, rfl⟩ := List.mem_map.mp hb
    obtain ⟨k, -, rfl⟩ := List.mem_map.mp hc
    rw [precedes_eq hg, decide_eq_true_iff] at hab hbc ⊢
    exact le_trans hab hbc
  antisymm := by
    intro a ha b hb hab hba
    obtain ⟨i, -, rfl⟩ := List.mem_map.mp ha
    obtain ⟨j, -, rfl⟩ := List.mem_map.mp hb
    rw [precedes_eq hg, decide_eq_true_iff] at hab hba
    rw [RankedQueue.id_eq_of_standing hg (le_antisymm hab hba)]

/-- The keys of a fresh queue are in the order of presentation. -/
theorem pairwise_keys_start : (RankedQueue.start g).places.keys.Pairwise fun a b =>
    precedes (g.tx a.id, g.fullPackage a.id) (g.tx b.id, g.fullPackage b.id) = true := by
  have hcoherent := RankedQueue.Coherent.start hg
  refine hcoherent.increasing.imp_of_mem fun {a b} ha hb hlt => ?_
  have hfirst := (hcoherent.mem_keys.mp ha).2
  have hsecond := (hcoherent.mem_keys.mp hb).2
  rw [RankedQueue.key_start] at hfirst hsecond
  rw [precedes_eq hg, decide_eq_true_iff, ← hfirst, ← hsecond]
  exact le_of_lt hlt

/-- The candidates of a snapshot stand as their keys do in a fresh queue. -/
theorem candidates_eq_keys {closed : Closed} (hbuilt : s.Built txs closed)
    (hdistinct : (txs.map (·.hash)).Nodup) (hrepresents : g.Represents s.view)
    (hshows : s.Shows txs) :
    s.candidates = (RankedQueue.start g).places.keys.map fun k => g.tx k.id := by
  have hperm : txs.Perm (g.ids.map g.tx) :=
    hbuilt.candidates_perm.symm.trans hrepresents.candidates_perm.symm
  have hknown : ∀ id, g.tx id ∈ txs := fun id =>
    hperm.mem_iff.mpr (List.mem_map_of_mem (CandidateGraph.mem_ids id))
  have hpackage := fullPackage_eq hg hrepresents hshows hdistinct hknown
  obtain ⟨ids, rfl, hids⟩ : ∃ ids : List (Fin g.size), txs = ids.map g.tx ∧ ids.Perm g.ids := by
    have hsplit := congrFun (congrFun (List.eq_map_comp_perm g.tx) txs) g.ids
    exact hsplit.mpr hperm
  let entryOf (id : Fin g.size) : Candidate × Package := (g.tx id, g.fullPackage id)
  have hentries : s.entries (ids.map g.tx) = ids.map entryOf := by
    rw [entries, List.map_map]
    exact List.map_congr_left fun id _ => congrArg (Prod.mk (g.tx id)) (hpackage id)
  have horders : Orders precedes (s.entries (ids.map g.tx)) := by
    rw [hentries]
    exact orders_entries hg ids
  have hkeys : ((RankedQueue.start g).places.keys.map fun k => entryOf k.id).Perm
      (s.entries (ids.map g.tx)) := by
    rw [hentries, RankedQueue.keys_start hg]
    refine ((List.mergeSort_perm _ _).map _).trans ?_
    rw [List.map_map]
    exact (hids.map entryOf).symm
  obtain ⟨sorted, hcandidates, hsorted, hpairwise⟩ := hbuilt.presented
  rw [hcandidates, horders.eq_of_pairwise hsorted hkeys (hpairwise horders)
    (List.pairwise_map.mpr (pairwise_keys_start hg)), List.map_map]
  rfl

end Order

end Snapshot

/-! ## Emptying a queue -/

namespace RankedQueue

variable {g : CandidateGraph}

theorem keys_of_pop? {q rest : RankedQueue g.size} {id : Fin g.size}
    (h : q.pop? = some (id, rest)) :
    q.places.keys.map (·.id) = id :: rest.places.keys.map (·.id) := by
  unfold pop? at h
  cases hkeys : q.places.keys with
  | nil => simp [hkeys] at h
  | cons k keys =>
      simp only [hkeys, Option.some.injEq, Prod.mk.injEq] at h
      obtain ⟨rfl, rfl⟩ := h
      rw [List.map_cons, BTree.keys_eraseAt, hkeys, List.eraseIdx_zero, List.tail_cons]

theorem length_lt_of_pop? {q rest : RankedQueue g.size} {id : Fin g.size}
    (h : q.pop? = some (id, rest)) : rest.length < q.length := by
  have hlength := congrArg List.length (keys_of_pop? h)
  simp only [List.length_map, List.length_cons] at hlength
  simp only [length]
  omega

/-- The candidates that leave a queue when it is popped until nobody waits. -/
def popAll (q : RankedQueue g.size) : List (Fin g.size) :=
  match h : q.pop? with
  | none => []
  | some (id, rest) =>
      have : rest.length < q.length := length_lt_of_pop? h
      id :: rest.popAll
termination_by q.length

theorem popAll_eq_drain (q : RankedQueue g.size) : q.popAll = q.drain.1 := by
  show q.popAll = q.places.keys.map (·.id)
  fun_induction popAll q with
  | case1 q hpop =>
      unfold pop? at hpop
      cases hkeys : q.places.keys with
      | nil => rfl
      | cons k keys => simp [hkeys] at hpop
  | case2 q id rest hpop _ ih => rw [keys_of_pop? hpop, ih]

end RankedQueue

/-- A graph of a snapshot fails to be built only for a candidate without weight or one that spends
itself, and its queue is emptied in the order of presentation. -/
theorem Snapshot.presents {sorter : Sorter (Candidate × Package)} {txs : List Candidate}
    {s : Snapshot} (hs : ofCandidates sorter txs = some (.ok s)) :
    (s.view.Accepted ↔ (∀ tx ∈ txs, tx.weight ≠ 0) ∧
      ∀ tx ∈ txs, ∀ input ∈ tx.inputs, input.prevout.hash ≠ tx.hash) ∧
    ∀ g, CandidateGraph.ofView s.view = .ok g →
      (RankedQueue.start g).popAll.map g.tx = s.candidates := by
  obtain ⟨hdistinct, hacyclic, ⟨closed, hbuilt⟩, hshows⟩ := built_of_ofCandidates hs
  constructor
  · rw [PoolView.accepted_iff_consistent]
    exact hshows.consistent_iff hbuilt.candidates_perm hdistinct hacyclic
  · intro g hg
    rw [RankedQueue.popAll_eq_drain, candidates_eq_keys (CandidateGraph.consistent_of_ofView hg)
      hbuilt hdistinct (CandidateGraph.represents_of_ofView hg) hshows]
    exact List.map_map

theorem Snapshot.presents_diamond : ∃ s g, ofCandidates .bothEnds diamond = some (.ok s) ∧
    CandidateGraph.ofView s.view = .ok g ∧
      (RankedQueue.start g).popAll.map g.tx = s.candidates := by
  have haccepted : ∃ s, ofCandidates .bothEnds diamond = some (.ok s) := ⟨_, by cbv⟩
  obtain ⟨s, hs⟩ := haccepted
  obtain ⟨hiff, hpresents⟩ := Snapshot.presents hs
  obtain ⟨g, hg⟩ := hiff.mpr (by decide)
  exact ⟨s, g, hs, hg, hpresents g hg⟩

end BlockProduction

import BlockProduction.Proofs.Pool.Views

/-!
# Parts of pools

A pool that some candidates have left shows the others with what is left of
their relations, and is consistent if the pool was.  When whoever depends on a
candidate that left has left, too, the graph of the rest is a part of the whole
graph: its numbers are places in the whole, in the same order, and its
candidates have all their ancestors.
-/

namespace BlockProduction

namespace PoolView

/-- The `rest` is the pool without those who have gone. -/
structure Leaves (view : PoolView) (gone : List Hash256) (rest : PoolView) : Prop where
  candidates_perm : rest.candidates.Perm (view.candidates.filter fun tx => tx.hash ∉ gone)
  ancestors : ∀ h ∈ rest.hashes, ∃ related, rest.ancestors? h = some related ∧
    ∀ a, a ∈ related ↔ a ∈ view.ancestorsOf h ∧ a ∉ gone
  descendants : ∀ h ∈ rest.hashes, ∃ related, rest.descendants? h = some related ∧
    ∀ d, d ∈ related ↔ d ∈ view.descendantsOf h ∧ d ∉ gone

/-- Whoever depends on a candidate that has gone has gone, too. -/
def ClosedBelow (view : PoolView) (gone : List Hash256) : Prop :=
  ∀ a ∈ view.hashes, a ∈ gone → ∀ d ∈ view.descendantsOf a, d ∈ gone

/-- The pool without those who have gone, in the order of the pool. -/
def without (view : PoolView) (gone : List Hash256) : PoolView :=
  { candidates := view.candidates.filter fun tx => tx.hash ∉ gone
    ancestors? := fun h => (view.ancestors? h).map fun related => related.filter (· ∉ gone)
    descendants? := fun h => (view.descendants? h).map fun related => related.filter (· ∉ gone) }

namespace Leaves

variable {view rest : PoolView} {gone : List Hash256} (hl : view.Leaves gone rest)
include hl

theorem mem_candidates_iff {tx : Candidate} :
    tx ∈ rest.candidates ↔ tx ∈ view.candidates ∧ tx.hash ∉ gone := by
  rw [hl.candidates_perm.mem_iff, List.mem_filter, decide_eq_true_eq]

theorem mem_hashes_iff {h : Hash256} : h ∈ rest.hashes ↔ h ∈ view.hashes ∧ h ∉ gone := by
  simp only [hashes, List.mem_map, hl.mem_candidates_iff]
  constructor
  · rintro ⟨tx, ⟨htx, hout⟩, rfl⟩
    exact ⟨⟨tx, htx, rfl⟩, hout⟩
  · rintro ⟨⟨tx, htx, rfl⟩, hout⟩
    exact ⟨tx, ⟨htx, hout⟩, rfl⟩

theorem mem_ancestorsOf_iff {a h : Hash256} (hh : h ∈ rest.hashes) :
    a ∈ rest.ancestorsOf h ↔ a ∈ view.ancestorsOf h ∧ a ∉ gone := by
  obtain ⟨related, hrelated, hiff⟩ := hl.ancestors h hh
  rw [ancestorsOf, hrelated]
  exact hiff a

theorem mem_descendantsOf_iff {d h : Hash256} (hh : h ∈ rest.hashes) :
    d ∈ rest.descendantsOf h ↔ d ∈ view.descendantsOf h ∧ d ∉ gone := by
  obtain ⟨related, hrelated, hiff⟩ := hl.descendants h hh
  rw [descendantsOf, hrelated]
  exact hiff d

theorem nodup_hashes (hview : view.hashes.Nodup) : rest.hashes.Nodup := by
  have hkept : ((view.candidates.filter fun tx => tx.hash ∉ gone).map (·.hash)).Nodup :=
    List.Nodup.sublist (List.filter_sublist.map _) hview
  exact (hl.candidates_perm.map _).nodup_iff.mpr hkept

/-- What is left of a relation to others is a relation to others that are left. -/
theorem relates {h : Hash256} {related? : Option (List Hash256)} {listed : List Hash256}
    (hothers : ∀ r ∈ listed, r ≠ h ∧ r ∈ view.hashes)
    (hleft : ∃ related, related? = some related ∧ ∀ r, r ∈ related ↔ r ∈ listed ∧ r ∉ gone) :
    rest.Relates h related? := by
  obtain ⟨related, hrelated, hiff⟩ := hleft
  refine ⟨related, hrelated, ?_⟩
  intro r hr
  obtain ⟨hlisted, hout⟩ := (hiff r).mp hr
  obtain ⟨hne, hin⟩ := hothers r hlisted
  exact ⟨hne, hl.mem_hashes_iff.mpr ⟨hin, hout⟩⟩

theorem consistent (hview : view.Consistent) : rest.Consistent where
  distinct := hl.nodup_hashes hview.distinct
  weight_ne_zero := by
    intro tx htx
    exact hview.weight_ne_zero tx (hl.mem_candidates_iff.mp htx).1
  ancestors_known := by
    intro h hh
    have hin : h ∈ view.hashes := (hl.mem_hashes_iff.mp hh).1
    exact hl.relates (fun _ => hview.mem_ancestorsOf hin) (hl.ancestors h hh)
  descendants_known := by
    intro h hh
    have hin : h ∈ view.hashes := (hl.mem_hashes_iff.mp hh).1
    exact hl.relates (fun _ => hview.mem_descendantsOf hin) (hl.descendants h hh)
  mem_descendants_iff := by
    intro a d ha hd
    obtain ⟨hain, haout⟩ := hl.mem_hashes_iff.mp ha
    obtain ⟨hdin, hdout⟩ := hl.mem_hashes_iff.mp hd
    have hinverse := hview.mem_descendants_iff hain hdin
    rw [hl.mem_descendantsOf_iff ha, hl.mem_ancestorsOf_iff hd]
    tauto
  ancestors_trans := by
    intro a b c hc hab hbc
    have hcin : c ∈ view.hashes := (hl.mem_hashes_iff.mp hc).1
    obtain ⟨hbc, hbout⟩ := (hl.mem_ancestorsOf_iff hc).mp hbc
    have hb : b ∈ rest.hashes :=
      hl.mem_hashes_iff.mpr ⟨(hview.mem_ancestorsOf hcin hbc).2, hbout⟩
    obtain ⟨hab, haout⟩ := (hl.mem_ancestorsOf_iff hb).mp hab
    exact (hl.mem_ancestorsOf_iff hc).mpr ⟨hview.ancestors_trans hcin hab hbc, haout⟩
  spent_mem_ancestors := by
    intro tx htx input hinput hspent
    obtain ⟨hin, hout⟩ := hl.mem_hashes_iff.mp hspent
    have htxin := (hl.mem_candidates_iff.mp htx).1
    have hhash : tx.hash ∈ rest.hashes := List.mem_map.mpr ⟨tx, htx, rfl⟩
    apply (hl.mem_ancestorsOf_iff hhash).mpr
    exact ⟨hview.spent_mem_ancestors tx htxin input hinput hin, hout⟩

/-- Whoever stays keeps all ancestors, as any of them that had gone would have taken it along. -/
theorem mem_ancestorsOf_iff_of_closed (hview : view.Consistent) (hclosed : view.ClosedBelow gone)
    {a h : Hash256} (hh : h ∈ rest.hashes) : a ∈ rest.ancestorsOf h ↔ a ∈ view.ancestorsOf h := by
  rw [hl.mem_ancestorsOf_iff hh]
  constructor
  · exact And.left
  · intro ha
    refine ⟨ha, fun hgone => ?_⟩
    obtain ⟨hin, hout⟩ := hl.mem_hashes_iff.mp hh
    have hain : a ∈ view.hashes := (hview.mem_ancestorsOf hin ha).2
    have hbelow : h ∈ view.descendantsOf a := (hview.mem_descendants_iff hain hin).mpr ha
    exact hout (hclosed a hain hgone h hbelow)

end Leaves

/-- Those who have gone are taken out of a relation that is known. -/
theorem Relates.exists_filter {view : PoolView} {h : Hash256} {related? : Option (List Hash256)}
    (hrelates : view.Relates h related?) (gone : List Hash256) :
    ∃ kept, (related?.map fun related => related.filter (· ∉ gone)) = some kept ∧
      ∀ r, r ∈ kept ↔ r ∈ related?.getD [] ∧ r ∉ gone := by
  obtain ⟨related, rfl, -⟩ := hrelates
  refine ⟨related.filter (· ∉ gone), rfl, fun r => ?_⟩
  rw [List.mem_filter, decide_eq_true_eq, Option.getD_some]

theorem Consistent.leaves_without {view : PoolView} (hview : view.Consistent)
    (gone : List Hash256) : view.Leaves gone (view.without gone) := by
  have hin : ∀ h ∈ (view.without gone).hashes, h ∈ view.hashes := by
    intro h hh
    obtain ⟨tx, htx, rfl⟩ := List.mem_map.mp hh
    exact List.mem_map.mpr ⟨tx, (List.mem_filter.mp htx).1, rfl⟩
  refine ⟨.refl _, ?_, ?_⟩
  · intro h hh
    exact (hview.ancestors_known h (hin h hh)).exists_filter gone
  · intro h hh
    exact (hview.descendants_known h (hin h hh)).exists_filter gone

end PoolView

namespace CandidateGraph

/-- The places of the candidates of one graph in another, ancestors included. -/
structure Part (g part : CandidateGraph) where
  place : Fin part.size → Fin g.size
  place_lt : ∀ {i j}, i < j → place i < place j
  tx_place : ∀ i, g.tx (place i) = part.tx i
  ancestorsOf_place : ∀ i, g.ancestorsOf (place i) = (part.ancestorsOf i).map place

namespace Part

variable {g part : CandidateGraph} (p : g.Part part)

theorem place_inj {i j : Fin part.size} : p.place i = p.place j ↔ i = j := by
  constructor
  · intro heq
    rcases Nat.lt_trichotomy i j with hlt | hsame | hgt
    · exact absurd heq (Fin.ne_of_lt (p.place_lt hlt))
    · exact Fin.ext hsame
    · exact absurd heq.symm (Fin.ne_of_lt (p.place_lt hgt))
  · exact congrArg p.place

theorem injective : Function.Injective p.place :=
  fun _ _ => p.place_inj.mp

@[simp] theorem hash_place (i : Fin part.size) : g.hash (p.place i) = part.hash i :=
  congrArg Candidate.hash (p.tx_place i)

@[simp] theorem place_mem_map_iff {i : Fin part.size} {ids : List (Fin part.size)} :
    p.place i ∈ ids.map p.place ↔ i ∈ ids :=
  List.mem_map_of_injective p.injective

@[simp] theorem place_mem_ancestorsOf_iff {i a : Fin part.size} :
    p.place a ∈ g.ancestorsOf (p.place i) ↔ a ∈ part.ancestorsOf i := by
  rw [p.ancestorsOf_place, p.place_mem_map_iff]

theorem exists_place_of_ancestor {i : Fin part.size} {a : Fin g.size}
    (ha : a ∈ g.ancestorsOf (p.place i)) : ∃ j ∈ part.ancestorsOf i, p.place j = a := by
  rw [p.ancestorsOf_place] at ha
  exact List.mem_map.mp ha

theorem place_mem_descendantsOf_iff (hg : g.Consistent) (hpart : part.Consistent)
    {i d : Fin part.size} :
    p.place d ∈ g.descendantsOf (p.place i) ↔ d ∈ part.descendantsOf i := by
  rw [hg.mem_descendants_iff, hpart.mem_descendants_iff, p.place_mem_ancestorsOf_iff]

/-- The descendants of a candidate outside the part are outside. -/
theorem exists_place_of_descendant (hg : g.Consistent) {i : Fin part.size} {a : Fin g.size}
    (hi : p.place i ∈ g.descendantsOf a) : ∃ j, p.place j = a := by
  obtain ⟨j, -, hj⟩ := p.exists_place_of_ancestor (hg.mem_descendants_iff.mp hi)
  exact ⟨j, hj⟩

/-- A part of a part. -/
def trans {third : CandidateGraph} (q : part.Part third) : g.Part third where
  place i := p.place (q.place i)
  place_lt h := p.place_lt (q.place_lt h)
  tx_place i := (p.tx_place _).trans (q.tx_place i)
  ancestorsOf_place i := by
    rw [p.ancestorsOf_place, q.ancestorsOf_place, List.map_map]
    rfl

theorem depthLe_place (i j : Fin part.size) :
    g.depthLe (p.place i) (p.place j) = part.depthLe i j := by
  simp only [depthLe, depthKey, p.ancestorsOf_place, p.hash_place, List.length_map]

end Part

theorem Consistent.lt_of_hash_lt {g : CandidateGraph} (hg : g.Consistent) {a b : Fin g.size}
    (h : (g.hash a).value.toNat < (g.hash b).value.toNat) : a < b := by
  rcases Nat.lt_trichotomy a b with hlt | heq | hgt
  · exact hlt
  · rw [Fin.ext heq] at h
    exact absurd h (Nat.lt_irrefl _)
  · have hback := hg.hash_lt (Fin.lt_def.mpr hgt)
    omega

/-- The graph of what a closed set of candidates leaves is a part of the whole graph. -/
theorem exists_part_of_leaves {view rest : PoolView} {gone : List Hash256} {g part : CandidateGraph}
    (hview : ofView view = .ok g) (hrest : ofView rest = .ok part) (hl : view.Leaves gone rest)
    (hclosed : view.ClosedBelow gone) :
    ∃ p : g.Part part, ∀ a, (∃ i, p.place i = a) ↔ g.hash a ∉ gone := by
  have hg := consistent_of_ofView hview
  have hpart := consistent_of_ofView hrest
  have hshown := represents_of_ofView hview
  have hkept := represents_of_ofView hrest
  have hsame : ∀ i, ∃ a, g.tx a = part.tx i := by
    intro i
    have hin : part.tx i ∈ rest.candidates := hkept.mem_candidates_iff.mpr ⟨i, rfl⟩
    exact hshown.mem_candidates_iff.mp (hl.mem_candidates_iff.mp hin).1
  choose place htx using hsame
  have hhash : ∀ i, g.hash (place i) = part.hash i := fun i => congrArg Candidate.hash (htx i)
  have hin : ∀ i, part.hash i ∈ rest.hashes := fun i => hkept.mem_hashes_iff.mpr ⟨i, rfl⟩
  have hplaced : ∀ a, (∃ i, place i = a) ↔ g.hash a ∉ gone := by
    intro a
    constructor
    · rintro ⟨i, rfl⟩
      rw [hhash]
      exact (hl.mem_hashes_iff.mp (hin i)).2
    · intro hout
      have hleft : g.hash a ∈ rest.hashes :=
        hl.mem_hashes_iff.mpr ⟨hshown.mem_hashes_iff.mpr ⟨a, rfl⟩, hout⟩
      obtain ⟨i, hi⟩ := hkept.mem_hashes_iff.mp hleft
      exact ⟨i, hg.hash_inj ((hhash i).trans hi)⟩
  have hlt : ∀ {i j}, i < j → place i < place j := by
    intro i j hij
    apply hg.lt_of_hash_lt
    rw [hhash, hhash]
    exact hpart.hash_lt hij
  have hancestors : ∀ i, g.ancestorsOf (place i) = (part.ancestorsOf i).map place := by
    intro i
    have hmapped : ((part.ancestorsOf i).map place).Pairwise (· < ·) :=
      (hpart.ancestors_increasing i).map place fun _ _ => hlt
    apply (hg.ancestors_increasing (place i)).eq_of_mem_iff hmapped
    intro a
    rw [← hshown.hash_mem_ancestorsOf_iff hg, hhash,
      ← hl.mem_ancestorsOf_iff_of_closed (hshown.consistent hg) hclosed (hin i),
      hkept.mem_ancestorsOf_iff, List.mem_map]
    constructor
    · rintro ⟨b, hb, heq⟩
      exact ⟨b, hb, hg.hash_inj ((hhash b).trans heq)⟩
    · rintro ⟨b, hb, rfl⟩
      exact ⟨b, hb, (hhash b).symm⟩
  exact ⟨⟨place, hlt, htx, hancestors⟩, hplaced⟩

end CandidateGraph

end BlockProduction

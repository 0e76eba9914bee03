import BlockProduction.Proofs.Pool.Consistency

/-!
# Consistent views

Which views a graph can be built from, said of the view alone: the candidates
are told apart by their hashes and have weight, the relations list other
candidates only, ancestors are transitive, descendants are their inverse, and
whoever spends a candidate lists it as an ancestor.
-/

namespace BlockProduction

namespace PoolView

/-- The hashes of the candidates. -/
def hashes (view : PoolView) : List Hash256 :=
  view.candidates.map (·.hash)

/-- The listed ancestors of a hash, none for a hash without relations. -/
def ancestorsOf (view : PoolView) (h : Hash256) : List Hash256 :=
  (view.ancestors? h).getD []

/-- The listed descendants of a hash, none for a hash without relations. -/
def descendantsOf (view : PoolView) (h : Hash256) : List Hash256 :=
  (view.descendants? h).getD []

/-- A relation of a candidate is known and lists other candidates only. -/
def Relates (view : PoolView) (h : Hash256) (related? : Option (List Hash256)) : Prop :=
  ∃ related, related? = some related ∧ ∀ r ∈ related, r ≠ h ∧ r ∈ view.hashes

/-- The candidates and the relations of a view fit together. -/
structure Consistent (view : PoolView) : Prop where
  distinct : view.hashes.Nodup
  weight_ne_zero : ∀ tx ∈ view.candidates, tx.weight ≠ 0
  ancestors_known : ∀ h ∈ view.hashes, view.Relates h (view.ancestors? h)
  descendants_known : ∀ h ∈ view.hashes, view.Relates h (view.descendants? h)
  mem_descendants_iff : ∀ {a d}, a ∈ view.hashes → d ∈ view.hashes →
    (d ∈ view.descendantsOf a ↔ a ∈ view.ancestorsOf d)
  ancestors_trans : ∀ {a b c}, c ∈ view.hashes → a ∈ view.ancestorsOf b →
    b ∈ view.ancestorsOf c → a ∈ view.ancestorsOf c
  spent_mem_ancestors : ∀ tx ∈ view.candidates, ∀ input ∈ tx.inputs,
    input.prevout.hash ∈ view.hashes → input.prevout.hash ∈ view.ancestorsOf tx.hash

namespace Consistent

variable {view : PoolView} (h : view.Consistent)
include h

theorem mem_ancestorsOf {a d : Hash256} (hd : d ∈ view.hashes) (ha : a ∈ view.ancestorsOf d) :
    a ≠ d ∧ a ∈ view.hashes := by
  obtain ⟨related, hrelated, hother⟩ := h.ancestors_known d hd
  rw [ancestorsOf, hrelated] at ha
  exact hother a ha

theorem mem_descendantsOf {a d : Hash256} (ha : a ∈ view.hashes) (hd : d ∈ view.descendantsOf a) :
    d ≠ a ∧ d ∈ view.hashes := by
  obtain ⟨related, hrelated, hother⟩ := h.descendants_known a ha
  rw [descendantsOf, hrelated] at hd
  exact hother d hd

theorem ancestors_asymm {a b : Hash256} (hb : b ∈ view.hashes) (hab : a ∈ view.ancestorsOf b) :
    b ∉ view.ancestorsOf a := by
  intro hba
  have ha : a ∈ view.hashes := (h.mem_ancestorsOf hb hab).2
  have hself : a ∈ view.ancestorsOf a := h.ancestors_trans ha hab hba
  exact (h.mem_ancestorsOf ha hself).1 rfl

end Consistent

end PoolView

namespace CandidateGraph

/-! ## What a graph says of its view -/

/-- A list of hashes that shows some candidates shows nobody else. -/
theorem Consistent.hash_mem_iff {g : CandidateGraph} (hg : g.Consistent) {ids : List (Fin g.size)}
    {related : List Hash256} (h : ∀ x, x ∈ related ↔ ∃ a ∈ ids, g.hash a = x) {id : Fin g.size} :
    g.hash id ∈ related ↔ id ∈ ids := by
  rw [h]
  constructor
  · rintro ⟨other, hother, heq⟩
    rwa [← hg.hash_inj heq]
  · intro hid
    exact ⟨id, hid, rfl⟩

namespace Represents

variable {g : CandidateGraph} {view : PoolView} (h : g.Represents view)
include h

theorem mem_hashes_iff {x : Hash256} : x ∈ view.hashes ↔ ∃ id, g.hash id = x := by
  simp only [PoolView.hashes, List.mem_map, h.mem_candidates_iff]
  constructor
  · rintro ⟨tx, ⟨id, rfl⟩, rfl⟩
    exact ⟨id, rfl⟩
  · rintro ⟨id, rfl⟩
    exact ⟨g.tx id, ⟨id, rfl⟩, rfl⟩

theorem mem_ancestorsOf_iff {id : Fin g.size} {x : Hash256} :
    x ∈ view.ancestorsOf (g.hash id) ↔ ∃ a ∈ g.ancestorsOf id, g.hash a = x := by
  obtain ⟨related, hrelated, hiff⟩ := h.ancestors id
  rw [PoolView.ancestorsOf, hrelated]
  exact hiff x

theorem mem_descendantsOf_iff {id : Fin g.size} {x : Hash256} :
    x ∈ view.descendantsOf (g.hash id) ↔ ∃ d ∈ g.descendantsOf id, g.hash d = x := by
  obtain ⟨related, hrelated, hiff⟩ := h.descendants id
  rw [PoolView.descendantsOf, hrelated]
  exact hiff x

theorem hash_mem_ancestorsOf_iff (hg : g.Consistent) {id a : Fin g.size} :
    g.hash a ∈ view.ancestorsOf (g.hash id) ↔ a ∈ g.ancestorsOf id :=
  hg.hash_mem_iff fun _ => h.mem_ancestorsOf_iff

theorem hash_mem_descendantsOf_iff (hg : g.Consistent) {id d : Fin g.size} :
    g.hash d ∈ view.descendantsOf (g.hash id) ↔ d ∈ g.descendantsOf id :=
  hg.hash_mem_iff fun _ => h.mem_descendantsOf_iff

theorem nodup_hashes (hg : g.Consistent) : view.hashes.Nodup := by
  have hids : (g.ids.map g.hash).Nodup := hg.nodup_map_hash (List.nodup_finRange _)
  have hperm : (g.ids.map g.hash).Perm view.hashes := by
    have hcandidates := h.candidates_perm.map (·.hash)
    rwa [List.map_map] at hcandidates
  exact hperm.nodup_iff.mp hids

/-- A relation that shows other candidates lists other candidates. -/
theorem relates (hg : g.Consistent) {id : Fin g.size} {ids : List (Fin g.size)}
    {related? : Option (List Hash256)} (hself : id ∉ ids)
    (hshown : ∃ related, related? = some related ∧
      ∀ x, x ∈ related ↔ ∃ a ∈ ids, g.hash a = x) :
    view.Relates (g.hash id) related? := by
  obtain ⟨related, hrelated, hiff⟩ := hshown
  refine ⟨related, hrelated, ?_⟩
  intro r hr
  obtain ⟨a, ha, rfl⟩ := (hiff r).mp hr
  refine ⟨fun heq => ?_, h.mem_hashes_iff.mpr ⟨a, rfl⟩⟩
  rw [hg.hash_inj heq] at ha
  exact hself ha

theorem consistent (hg : g.Consistent) : view.Consistent where
  distinct := h.nodup_hashes hg
  weight_ne_zero := by
    intro tx htx
    obtain ⟨id, rfl⟩ := h.mem_candidates_iff.mp htx
    exact hg.weight_ne_zero id
  ancestors_known := by
    intro x hx
    obtain ⟨id, rfl⟩ := h.mem_hashes_iff.mp hx
    exact h.relates hg (hg.not_mem_ancestors_self id) (h.ancestors id)
  descendants_known := by
    intro x hx
    obtain ⟨id, rfl⟩ := h.mem_hashes_iff.mp hx
    exact h.relates hg (hg.not_mem_descendants_self id) (h.descendants id)
  mem_descendants_iff := by
    intro a d ha hd
    obtain ⟨a, rfl⟩ := h.mem_hashes_iff.mp ha
    obtain ⟨d, rfl⟩ := h.mem_hashes_iff.mp hd
    rw [h.hash_mem_ancestorsOf_iff hg, h.hash_mem_descendantsOf_iff hg]
    exact hg.mem_descendants_iff
  ancestors_trans := by
    intro a b c hc hab hbc
    obtain ⟨c, rfl⟩ := h.mem_hashes_iff.mp hc
    obtain ⟨b, hb, rfl⟩ := h.mem_ancestorsOf_iff.mp hbc
    obtain ⟨a, ha, rfl⟩ := h.mem_ancestorsOf_iff.mp hab
    rw [h.hash_mem_ancestorsOf_iff hg]
    exact hg.ancestors_trans ha hb
  spent_mem_ancestors := by
    intro tx htx input hinput hspent
    obtain ⟨id, rfl⟩ := h.mem_candidates_iff.mp htx
    obtain ⟨parent, hparent⟩ := h.mem_hashes_iff.mp hspent
    have hid : g.idOf? input.prevout.hash = some parent := by
      rw [← hparent]
      exact hg.idOf?_hash parent
    rw [← hparent]
    exact (h.hash_mem_ancestorsOf_iff hg).mpr (hg.spent_mem_ancestors hinput hid)

end Represents

/-! ## The checks pass on consistent views -/

theorem candidateError?_eq_none {txs : List Candidate} {previous : Option Hash256}
    (hweight : ∀ tx ∈ txs, tx.weight ≠ 0) (hdistinct : (txs.map (·.hash)).Nodup)
    (hprevious : ∀ tx ∈ txs, previous ≠ some tx.hash) : candidateError? previous txs = none := by
  induction txs generalizing previous with
  | nil => rfl
  | cons tx rest ih =>
      obtain ⟨hfirst, hrest⟩ := List.nodup_cons.mp hdistinct
      have hnext : candidateError? (some tx.hash) rest = none := by
        apply ih (fun other hother => hweight other (.tail _ hother)) hrest
        intro other hother heq
        have hsame : tx.hash = other.hash := Option.some.inj heq
        exact hfirst (List.mem_map.mpr ⟨other, hother, hsame.symm⟩)
      rw [candidateError?, if_neg (hweight tx (.head _)), if_neg (hprevious tx (.head _))]
      exact hnext

theorem relationFault?_eq_none_iff {known : List Hash256} {h : Hash256}
    {related? : Option (List Hash256)} : relationFault? known h related? = none ↔
      ∃ related, related? = some related ∧ ∀ r ∈ related, r ≠ h ∧ r ∈ known := by
  refine ⟨related_of_relationFault?, ?_⟩
  rintro ⟨related, rfl, hother⟩
  apply List.findSome?_eq_none_iff.mpr
  intro r hr
  obtain ⟨hne, hknown⟩ := hother r hr
  rw [if_neg hne, if_pos (List.contains_iff_mem.mpr hknown)]

theorem mem_sorted {view : PoolView} {tx : Candidate} :
    tx ∈ sorted view ↔ tx ∈ view.candidates :=
  List.mem_mergeSort

section Build

variable {view : PoolView} {txs : List Candidate}

theorem tx_build_mem (id : Fin (build view txs).size) : (build view txs).tx id ∈ txs :=
  List.getElem_mem id.isLt

theorem mem_build_ancestorsOf {id a : Fin (build view txs).size} :
    a ∈ (build view txs).ancestorsOf id ↔
      (build view txs).hash a ∈ view.ancestorsOf ((build view txs).hash id) := by
  rw [build_ancestorsOf]
  exact mem_numbersOf

theorem mem_build_descendantsOf {id d : Fin (build view txs).size} :
    d ∈ (build view txs).descendantsOf id ↔
      (build view txs).hash d ∈ view.descendantsOf ((build view txs).hash id) := by
  rw [build_descendantsOf]
  exact mem_numbersOf

theorem hash_build_mem (id : Fin (build view (sorted view)).size) :
    (build view (sorted view)).hash id ∈ view.hashes :=
  List.mem_map.mpr ⟨_, mem_sorted.mp (tx_build_mem id), rfl⟩

end Build

section

variable {view : PoolView} (h : view.Consistent)
include h

theorem candidateError?_of_consistent : candidateError? none (sorted view) = none := by
  have hperm : ((sorted view).map (·.hash)).Perm view.hashes := (List.mergeSort_perm _ _).map _
  apply candidateError?_eq_none
  · intro tx htx
    exact h.weight_ne_zero tx (mem_sorted.mp htx)
  · exact hperm.nodup_iff.mpr h.distinct
  · intro tx _ heq
    contradiction

theorem relationsFault?_of_consistent : relationsFault? view (sorted view) = none := by
  have hknown : ∀ r, r ∈ view.hashes → r ∈ (sorted view).map (·.hash) := by
    intro r hr
    obtain ⟨tx, htx, rfl⟩ := List.mem_map.mp hr
    exact List.mem_map.mpr ⟨tx, mem_sorted.mpr htx, rfl⟩
  have hnone : ∀ x related?, view.Relates x related? →
      relationFault? ((sorted view).map (·.hash)) x related? = none := by
    rintro x related? ⟨related, hrelated, hother⟩
    apply relationFault?_eq_none_iff.mpr
    exact ⟨related, hrelated, fun r hr => ⟨(hother r hr).1, hknown r (hother r hr).2⟩⟩
  apply List.findSome?_eq_none_iff.mpr
  intro tx htx
  have hhash : tx.hash ∈ view.hashes := List.mem_map.mpr ⟨tx, mem_sorted.mp htx, rfl⟩
  apply Option.or_eq_none_iff.mpr
  exact ⟨hnone _ _ (h.ancestors_known _ hhash), hnone _ _ (h.descendants_known _ hhash)⟩

theorem fault?_of_consistent : (build view (sorted view)).fault? = none := by
  apply fault?_eq_none_iff.mpr
  intro id
  have hid := hash_build_mem id
  refine ⟨?_, ?_, ?_⟩
  · intro input hinput
    apply inputFault?_eq_none_iff.mpr
    intro parent hparent
    have hhash : (build view (sorted view)).hash parent = input.prevout.hash :=
      hash_of_idOf? hparent
    have hspent : input.prevout.hash ∈ view.hashes := by
      rw [← hhash]
      exact hash_build_mem parent
    rw [mem_build_ancestorsOf, hhash]
    exact h.spent_mem_ancestors _ (mem_sorted.mp (tx_build_mem id)) input hinput hspent
  · intro a ha
    rw [mem_build_ancestorsOf] at ha
    apply ancestorFault?_eq_none_iff.mpr
    refine ⟨?_, ?_, ?_⟩
    · rw [mem_build_ancestorsOf]
      exact h.ancestors_asymm hid ha
    · rw [mem_build_descendantsOf]
      exact (h.mem_descendants_iff (hash_build_mem a) hid).mpr ha
    · intro b hb
      rw [mem_build_ancestorsOf] at hb ⊢
      exact h.ancestors_trans hid hb ha
  · intro d hd
    rw [mem_build_descendantsOf] at hd
    apply descendantFault?_eq_none_iff.mpr
    rw [mem_build_ancestorsOf]
    exact (h.mem_descendants_iff hid (hash_build_mem d)).mp hd

end

end CandidateGraph

theorem PoolView.accepted_iff_consistent {view : PoolView} : view.Accepted ↔ view.Consistent := by
  constructor
  · rintro ⟨g, hg⟩
    exact (CandidateGraph.represents_of_ofView hg).consistent (CandidateGraph.consistent_of_ofView hg)
  · intro h
    exact ⟨_, CandidateGraph.ofView_eq_ok_iff.mpr ⟨CandidateGraph.candidateError?_of_consistent h,
      CandidateGraph.relationsFault?_of_consistent h, CandidateGraph.fault?_of_consistent h, rfl⟩⟩

end BlockProduction

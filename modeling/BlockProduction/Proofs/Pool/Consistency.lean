import BlockProduction.Chain
import BlockProduction.Pool.Graph
import Mathlib

/-!
# Consistent graphs

What building a graph from a pool view guarantees: hashes tell candidates apart
and follow their numbers, every candidate has weight, ancestors are transitive
and without cycles, descendants are their inverse, and whoever spends a
candidate lists it as an ancestor.  The relations of the graph are those that
the view answers.
-/

namespace BlockProduction

/-- A view that a graph can be built from. -/
def PoolView.Accepted (view : PoolView) : Prop :=
  ∃ g, CandidateGraph.ofView view = .ok g

namespace CandidateGraph

/-- The relations of a graph fit together. -/
structure Consistent (g : CandidateGraph) : Prop where
  hash_lt : ∀ {a b : Fin g.size}, a < b → (g.hash a).value.toNat < (g.hash b).value.toNat
  weight_ne_zero : ∀ a, (g.tx a).weight ≠ 0
  ancestors_increasing : ∀ a, (g.ancestorsOf a).Pairwise (· < ·)
  descendants_increasing : ∀ a, (g.descendantsOf a).Pairwise (· < ·)
  mem_descendants_iff : ∀ {a d}, d ∈ g.descendantsOf a ↔ a ∈ g.ancestorsOf d
  ancestors_trans : ∀ {a b c}, a ∈ g.ancestorsOf b → b ∈ g.ancestorsOf c → a ∈ g.ancestorsOf c
  ancestors_asymm : ∀ {a b}, a ∈ g.ancestorsOf b → b ∉ g.ancestorsOf a
  spent_mem_ancestors : ∀ {id parent} {input : TxInput}, input ∈ (g.tx id).inputs →
    g.idOf? input.prevout.hash = some parent → parent ∈ g.ancestorsOf id

/-- A graph shows the candidates and the relations of a view. -/
structure Represents (g : CandidateGraph) (view : PoolView) : Prop where
  candidates_perm : (g.ids.map g.tx).Perm view.candidates
  ancestors : ∀ id, ∃ related, view.ancestors? (g.hash id) = some related ∧
    ∀ h, h ∈ related ↔ ∃ a ∈ g.ancestorsOf id, g.hash a = h
  descendants : ∀ id, ∃ related, view.descendants? (g.hash id) = some related ∧
    ∀ h, h ∈ related ↔ ∃ d ∈ g.descendantsOf id, g.hash d = h

/-! ## The candidates in order -/

theorem sorted_pairwise (view : PoolView) :
    (sorted view).Pairwise fun a b => Hash256.le a.hash b.hash = true :=
  List.pairwise_mergeSort (fun a b c => Hash256.le_trans a.hash b.hash c.hash)
    (fun a b => Hash256.le_total a.hash b.hash) view.candidates

theorem weight_ne_zero_of_candidateError? {txs : List Candidate} {previous : Option Hash256}
    (h : candidateError? previous txs = none) : ∀ tx ∈ txs, tx.weight ≠ 0 := by
  induction txs generalizing previous with
  | nil => simp
  | cons tx rest ih =>
      unfold candidateError? at h
      split at h
      · contradiction
      · rename_i hweight
        split at h
        · contradiction
        · intro other hother
          rcases List.mem_cons.mp hother with rfl | hrest
          · exact hweight
          · exact ih h other hrest

theorem hash_ne_of_candidateError? {tx : Candidate} {rest : List Candidate}
    (h : candidateError? (some tx.hash) rest = none) : ∀ other ∈ rest.head?, other.hash ≠ tx.hash := by
  cases rest with
  | nil => simp
  | cons next rest =>
      unfold candidateError? at h
      split at h
      · contradiction
      · split at h
        · contradiction
        · rename_i hne
          intro other hother
          cases hother
          exact fun heq => hne (congrArg some heq.symm)

/-- Without an error, the hashes of sorted candidates increase strictly. -/
theorem hashes_increasing {txs : List Candidate} {previous : Option Hash256}
    (hsorted : txs.Pairwise fun a b => Hash256.le a.hash b.hash = true)
    (h : candidateError? previous txs = none) :
    txs.Pairwise fun a b => a.hash.value.toNat < b.hash.value.toNat := by
  induction txs generalizing previous with
  | nil => exact .nil
  | cons tx rest ih =>
      obtain ⟨hfirst, hrest⟩ := List.pairwise_cons.mp hsorted
      have herror : candidateError? (some tx.hash) rest = none := by
        unfold candidateError? at h
        split at h
        · contradiction
        · split at h
          · contradiction
          · exact h
      refine List.pairwise_cons.mpr ⟨?_, ih hrest herror⟩
      cases rest with
      | nil => simp
      | cons next rest =>
          have hle := Hash256.le_iff.mp (hfirst next (by simp))
          have hne : tx.hash.value.toNat ≠ next.hash.value.toNat := by
            intro heq
            refine hash_ne_of_candidateError? herror next rfl ?_
            exact Hash256.le_antisymm (Hash256.le_iff.mpr (Nat.le_of_eq heq.symm))
              (Hash256.le_iff.mpr (Nat.le_of_eq heq))
          intro other hother
          rcases List.mem_cons.mp hother with rfl | hother
          · omega
          · have := Hash256.le_iff.mp ((List.pairwise_cons.mp hrest).1 other hother)
            omega

/-! ## The relations -/

theorem related_of_relationFault? {known : List Hash256} {h : Hash256}
    {related : Option (List Hash256)} (hfault : relationFault? known h related = none) :
    ∃ hashes, related = some hashes ∧ ∀ r ∈ hashes, r ≠ h ∧ r ∈ known := by
  cases related with
  | none => simp [relationFault?] at hfault
  | some hashes =>
      refine ⟨hashes, rfl, ?_⟩
      intro r hr
      have hr := List.findSome?_eq_none_iff.mp hfault r hr
      split at hr
      · contradiction
      · rename_i hself
        split at hr
        · rename_i hknown
          exact ⟨hself, by simpa using hknown⟩
        · contradiction

theorem mem_numbersOf {n : Nat} {txs : Vector Candidate n} {related : List Hash256} {id : Fin n} :
    id ∈ numbersOf txs related ↔ (txs.get id).hash ∈ related := by
  unfold numbersOf
  split
  · rename_i hempty
    simp [List.isEmpty_iff.mp hempty]
  · simp [List.mem_finRange]

theorem numbersOf_increasing {n : Nat} (txs : Vector Candidate n) (related : List Hash256) :
    (numbersOf txs related).Pairwise (· < ·) := by
  unfold numbersOf
  split
  · exact .nil
  · exact (List.pairwise_lt_finRange n).filter _

section Build

variable (view : PoolView) (txs : List Candidate)

theorem build_ancestorsOf (id : Fin (build view txs).size) :
    (build view txs).ancestorsOf id =
      numbersOf (build view txs).txs ((view.ancestors? ((build view txs).hash id)).getD []) :=
  Vector.getElem_map _ id.isLt

theorem build_descendantsOf (id : Fin (build view txs).size) :
    (build view txs).descendantsOf id =
      numbersOf (build view txs).txs ((view.descendants? ((build view txs).hash id)).getD []) :=
  Vector.getElem_map _ id.isLt

theorem build_candidates : (build view txs).ids.map (build view txs).tx = txs := by
  apply List.ext_getElem
  · simp [ids, build]
  · intro i h₁ h₂
    simp [ids, build, tx]

end Build

/-! ## Numbers and hashes -/

@[simp] theorem mem_ids {g : CandidateGraph} (id : Fin g.size) : id ∈ g.ids :=
  List.mem_finRange id

theorem idOf?_isSome_iff {g : CandidateGraph} {h : Hash256} :
    (g.idOf? h).isSome = true ↔ ∃ id, g.hash id = h := by
  simp only [idOf?, Vector.isSome_findFinIdx?, Vector.any_eq_true, decide_eq_true_eq]
  exact ⟨fun ⟨i, hi, heq⟩ => ⟨⟨i, hi⟩, heq⟩, fun ⟨id, heq⟩ => ⟨id, id.isLt, heq⟩⟩

theorem hash_of_idOf? {g : CandidateGraph} {h : Hash256} {id : Fin g.size}
    (hid : g.idOf? h = some id) : g.hash id = h := by
  unfold idOf? Vector.findFinIdx? at hid
  obtain ⟨i, hi, rfl⟩ := Option.map_eq_some_iff.mp hid
  have hfound := (Array.findFinIdx?_eq_some_iff.mp hi).1
  simpa [hash, tx, Vector.get_eq_getElem] using hfound

/-! ## What an accepted view guarantees -/

/-- An accepted view has been through every check. -/
theorem ofView_eq_ok_iff {view : PoolView} {g : CandidateGraph} :
    ofView view = .ok g ↔ candidateError? none (sorted view) = none ∧
      relationsFault? view (sorted view) = none ∧ (build view (sorted view)).fault? = none ∧
      build view (sorted view) = g := by
  simp only [ofView]
  cases candidateError? none (sorted view) with
  | some e => simp
  | none =>
      cases relationsFault? view (sorted view) with
      | some fault => simp
      | none =>
          cases (build view (sorted view)).fault? with
          | some fault => simp
          | none => simp

theorem inputFault?_eq_none_iff {g : CandidateGraph} {id : Fin g.size} {input : TxInput} :
    g.inputFault? id input = none ↔
      ∀ parent, g.idOf? input.prevout.hash = some parent → parent ∈ g.ancestorsOf id := by
  unfold inputFault?
  cases g.idOf? input.prevout.hash with
  | none => simp
  | some parent => simp

theorem ancestorFault?_eq_none_iff {g : CandidateGraph} {id ancestor : Fin g.size} :
    g.ancestorFault? id ancestor = none ↔ id ∉ g.ancestorsOf ancestor ∧
      id ∈ g.descendantsOf ancestor ∧
      ∀ a ∈ g.ancestorsOf ancestor, a ∈ g.ancestorsOf id := by
  unfold ancestorFault?
  split
  · simp_all
  · split
    · simp_all
    · split
      · rename_i hopen
        simp only [List.any_eq_true, Bool.not_eq_true', List.contains_eq_mem,
          decide_eq_false_iff_not] at hopen
        obtain ⟨a, ha, hout⟩ := hopen
        simp only [reduceCtorEq, false_iff, not_and]
        exact fun _ _ hall => hout (hall a ha)
      · simp_all

theorem descendantFault?_eq_none_iff {g : CandidateGraph} {id descendant : Fin g.size} :
    g.descendantFault? id descendant = none ↔ id ∈ g.ancestorsOf descendant := by
  unfold descendantFault?
  split <;> simp_all

theorem fault?_eq_none_iff {g : CandidateGraph} :
    g.fault? = none ↔ ∀ id,
      (∀ input ∈ (g.tx id).inputs, g.inputFault? id input = none) ∧
      (∀ a ∈ g.ancestorsOf id, g.ancestorFault? id a = none) ∧
      ∀ d ∈ g.descendantsOf id, g.descendantFault? id d = none := by
  simp [fault?, entryFault?, ids, List.findSome?_eq_none_iff, List.mem_finRange]

/-- The relations of an accepted view are known for every candidate. -/
theorem relations_of_ofView {view : PoolView} {g : CandidateGraph} (h : ofView view = .ok g)
    (id : Fin g.size) :
    (∃ related, view.ancestors? (g.hash id) = some related ∧
      ∀ r ∈ related, ∃ other, g.hash other = r) ∧
    ∃ related, view.descendants? (g.hash id) = some related ∧
      ∀ r ∈ related, ∃ other, g.hash other = r := by
  obtain ⟨-, hrelations, -, rfl⟩ := ofView_eq_ok_iff.mp h
  have hfaults := List.findSome?_eq_none_iff.mp hrelations _
    (List.getElem_mem (l := sorted view) id.isLt)
  rw [Option.or_eq_none_iff] at hfaults
  have hknown : ∀ r ∈ (sorted view).map (·.hash), ∃ other, (build view (sorted view)).hash other = r := by
    intro r hr
    obtain ⟨tx, htx, rfl⟩ := List.mem_map.mp hr
    obtain ⟨i, hi, rfl⟩ := List.mem_iff_getElem.mp htx
    exact ⟨⟨i, hi⟩, rfl⟩
  obtain ⟨ancestors, hancestors, hin⟩ := related_of_relationFault? hfaults.1
  obtain ⟨descendants, hdescendants, hout⟩ := related_of_relationFault? hfaults.2
  exact ⟨⟨ancestors, hancestors, fun r hr => hknown r (hin r hr).2⟩,
    ⟨descendants, hdescendants, fun r hr => hknown r (hout r hr).2⟩⟩

theorem consistent_of_ofView {view : PoolView} {g : CandidateGraph} (h : ofView view = .ok g) :
    g.Consistent := by
  obtain ⟨herror, -, hfault, rfl⟩ := ofView_eq_ok_iff.mp h
  rw [fault?_eq_none_iff] at hfault
  have hincreasing := hashes_increasing (sorted_pairwise view) herror
  have hanc : ∀ {a b}, a ∈ (build view (sorted view)).ancestorsOf b → _ :=
    fun {a b} ha => ancestorFault?_eq_none_iff.mp ((hfault b).2.1 a ha)
  refine ⟨?_, ?_, ?_, ?_, ?_, ?_, ?_, ?_⟩
  · intro a b hab
    exact List.pairwise_iff_getElem.mp hincreasing a b a.isLt b.isLt hab
  · intro a
    exact weight_ne_zero_of_candidateError? herror _ (List.getElem_mem (l := sorted view) a.isLt)
  · intro a
    rw [build_ancestorsOf]
    exact numbersOf_increasing _ _
  · intro a
    rw [build_descendantsOf]
    exact numbersOf_increasing _ _
  · intro a d
    constructor
    · intro hd
      exact descendantFault?_eq_none_iff.mp ((hfault a).2.2 d hd)
    · intro ha
      exact (hanc ha).2.1
  · intro a b c hab hbc
    exact (hanc hbc).2.2 a hab
  · intro a b hab
    exact (hanc hab).1
  · intro id parent input hinput hparent
    exact inputFault?_eq_none_iff.mp ((hfault id).1 input hinput) parent hparent

/-- The hashes of numbered relatives are the listed ones, when all listed ones are known. -/
theorem mem_related_iff {g : CandidateGraph} {related : List Hash256}
    (hknown : ∀ r ∈ related, ∃ other, g.hash other = r) (h : Hash256) :
    h ∈ related ↔ ∃ id ∈ numbersOf g.txs related, g.hash id = h := by
  constructor
  · intro hmem
    obtain ⟨other, rfl⟩ := hknown h hmem
    exact ⟨other, mem_numbersOf.mpr hmem, rfl⟩
  · rintro ⟨id, hid, rfl⟩
    exact mem_numbersOf.mp hid

theorem represents_of_ofView {view : PoolView} {g : CandidateGraph} (h : ofView view = .ok g) :
    g.Represents view := by
  have hrelations := relations_of_ofView h
  obtain ⟨-, -, -, rfl⟩ := ofView_eq_ok_iff.mp h
  refine ⟨?_, ?_, ?_⟩
  · rw [build_candidates]
    exact List.mergeSort_perm _ _
  · intro id
    obtain ⟨related, hrelated, hknown⟩ := (hrelations id).1
    refine ⟨related, hrelated, ?_⟩
    rw [build_ancestorsOf, hrelated]
    exact mem_related_iff hknown
  · intro id
    obtain ⟨related, hrelated, hknown⟩ := (hrelations id).2
    refine ⟨related, hrelated, ?_⟩
    rw [build_descendantsOf, hrelated]
    exact mem_related_iff hknown

/-! ## Consequences -/

namespace Represents

variable {g : CandidateGraph} {view : PoolView} (h : g.Represents view)
include h

theorem mem_candidates_iff {tx : Candidate} : tx ∈ view.candidates ↔ ∃ id, g.tx id = tx := by
  rw [← h.candidates_perm.mem_iff, List.mem_map]
  simp only [mem_ids, true_and]

theorem length_candidates : view.candidates.length = g.size := by
  rw [← h.candidates_perm.length_eq, List.length_map, ids, List.length_finRange]

end Represents

namespace Consistent

variable {g : CandidateGraph} (hg : g.Consistent)
include hg

theorem hash_inj {a b : Fin g.size} (h : g.hash a = g.hash b) : a = b := by
  rcases Nat.lt_trichotomy a b with hlt | heq | hgt
  · have hless := hg.hash_lt hlt
    rw [h] at hless
    exact absurd hless (Nat.lt_irrefl _)
  · exact Fin.ext heq
  · have hless := hg.hash_lt hgt
    rw [h] at hless
    exact absurd hless (Nat.lt_irrefl _)

theorem nodup_map_hash {ids : List (Fin g.size)} (h : ids.Nodup) : (ids.map g.hash).Nodup :=
  List.pairwise_map.mpr (h.imp fun hne heq => hne (hg.hash_inj heq))

theorem idOf?_hash (id : Fin g.size) : g.idOf? (g.hash id) = some id := by
  have hsome : (g.idOf? (g.hash id)).isSome = true := idOf?_isSome_iff.mpr ⟨id, rfl⟩
  obtain ⟨found, hfound⟩ := Option.isSome_iff_exists.mp hsome
  rw [hfound, hg.hash_inj (hash_of_idOf? hfound)]

theorem not_mem_ancestors_self (a : Fin g.size) : a ∉ g.ancestorsOf a :=
  fun h => hg.ancestors_asymm h h

theorem ancestors_nodup (a : Fin g.size) : (g.ancestorsOf a).Nodup :=
  (hg.ancestors_increasing a).imp Fin.ne_of_lt

theorem descendants_nodup (a : Fin g.size) : (g.descendantsOf a).Nodup :=
  (hg.descendants_increasing a).imp Fin.ne_of_lt

theorem not_mem_descendants_self (a : Fin g.size) : a ∉ g.descendantsOf a :=
  fun h => hg.not_mem_ancestors_self a (hg.mem_descendants_iff.mp h)

theorem descendants_trans {a b c : Fin g.size} (hb : b ∈ g.descendantsOf a)
    (hc : c ∈ g.descendantsOf b) : c ∈ g.descendantsOf a := by
  rw [hg.mem_descendants_iff] at *
  exact hg.ancestors_trans hb hc

/-- A candidate has all the ancestors of its ancestors, and one of these more. -/
theorem ancestors_length_lt {a b : Fin g.size} (h : a ∈ g.ancestorsOf b) :
    (g.ancestorsOf a).length < (g.ancestorsOf b).length := by
  have hsubset : a :: g.ancestorsOf a ⊆ g.ancestorsOf b := by
    intro c hc
    rcases List.mem_cons.mp hc with rfl | hc
    · exact h
    · exact hg.ancestors_trans hc h
  have hnodup : (a :: g.ancestorsOf a).Nodup :=
    List.nodup_cons.mpr ⟨hg.not_mem_ancestors_self a, hg.ancestors_nodup a⟩
  exact (List.subperm_of_subset hnodup hsubset).length_le

end Consistent

/-! ## The order of depth -/

theorem depthLe_iff {g : CandidateGraph} {a b : Fin g.size} :
    g.depthLe a b = true ↔ (g.ancestorsOf a).length < (g.ancestorsOf b).length ∨
      (g.ancestorsOf a).length = (g.ancestorsOf b).length ∧
        (g.hash a).value.toNat ≤ (g.hash b).value.toNat := by
  have hhash : (compare (g.hash a) (g.hash b)).isLE = true ↔
      (g.hash a).value.toNat ≤ (g.hash b).value.toNat := Hash256.le_iff
  simp only [depthLe, depthKey]
  rcases Nat.lt_trichotomy (g.ancestorsOf a).length (g.ancestorsOf b).length with hlt | heq | hgt
  · simp [Nat.compare_eq_lt.mpr hlt, hlt]
  · simp [heq, hhash]
  · simp [Nat.compare_eq_gt.mpr hgt]
    omega

theorem depthLe_total {g : CandidateGraph} (a b : Fin g.size) :
    (g.depthLe a b || g.depthLe b a) = true := by
  simp only [Bool.or_eq_true, depthLe_iff]
  omega

theorem depthLe_trans {g : CandidateGraph} (a b c : Fin g.size) (hab : g.depthLe a b = true)
    (hbc : g.depthLe b c = true) : g.depthLe a c = true := by
  rw [depthLe_iff] at *
  omega

/-- In the order of depth, nobody stands before an ancestor. -/
theorem Consistent.pairwise_mergeSort_depthLe {g : CandidateGraph} (hg : g.Consistent)
    (ids : List (Fin g.size)) :
    (ids.mergeSort g.depthLe).Pairwise fun a b => b ∉ g.ancestorsOf a := by
  refine (List.pairwise_mergeSort depthLe_trans depthLe_total ids).imp ?_
  intro a b hab hmem
  have hdeep := hg.ancestors_length_lt hmem
  rw [depthLe_iff] at hab
  omega

end CandidateGraph

/-! ## A family -/

/-- A parent that pays little and a child that pays for both. -/
def familyPool : PoolView :=
  let parent : Candidate := ⟨⟨1⟩, 2, 100, 1000, 4, [⟨⟨⟨9⟩, 0⟩, finalSequence⟩], 0, false⟩
  let child : Candidate := ⟨⟨2⟩, 2, 9000, 1000, 4, [⟨⟨⟨1⟩, 0⟩, finalSequence⟩], 0, false⟩
  .ofTables [child, parent] [(⟨1⟩, []), (⟨2⟩, [⟨1⟩])] [(⟨1⟩, [⟨2⟩]), (⟨2⟩, [])]

/-- The output that the parent spends is confirmed. -/
def familyFunds : Confirmations := fun outpoint =>
  if outpoint.hash = ⟨9⟩ then some ⟨0, 0, false⟩ else none

/-- The family by number. -/
abbrev familyGraph : CandidateGraph :=
  { size := 2
    txs := familyPool.candidates.reverse.toArray.toVector
    ancestors := [[], [⟨0, by decide⟩]].toArray.toVector
    descendants := [[⟨1, by decide⟩], []].toArray.toVector }

theorem ofView_familyPool : CandidateGraph.ofView familyPool = .ok familyGraph := by
  cbv

theorem familyPool_accepted : familyPool.Accepted :=
  ⟨_, ofView_familyPool⟩

end BlockProduction

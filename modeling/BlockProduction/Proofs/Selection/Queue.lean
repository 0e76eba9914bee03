import BlockProduction.Proofs.RankedTree
import BlockProduction.Proofs.Selection.Greedy

/-!
# Coherent queues

As long as every waiting package has weight, the comparison of places is the
comparison of exact fee rates and then of hashes.  The tree of the queue then
holds the current key of every waiting candidate, in order and once, whatever
happens to the packages in the meantime.
-/

namespace BlockProduction

/-! ## The order of places -/

namespace RankKey

variable {n : Nat}

/-- The higher exact rate comes first, then the lower hash. -/
def standing (k : RankKey n) : ℚᵒᵈ ×ₗ ℕ :=
  toLex (OrderDual.toDual ((k.fee.toNat : ℚ) / k.weight.toNat), k.hash.value.toNat)

theorem cast_pos {w : UInt64} (h : w ≠ 0) : (0 : ℚ) < w.toNat := by
  have hne : w.toNat ≠ 0 := fun h0 => h (UInt64.toNat_inj.mp h0)
  exact_mod_cast Nat.pos_of_ne_zero hne

/-- Cross products compare as the rates do. -/
theorem compare_cross {a b : RankKey n} (ha : a.weight ≠ 0) (hb : b.weight ≠ 0) :
    compare (b.fee.toNat * a.weight.toNat) (a.fee.toNat * b.weight.toNat) =
      compare (OrderDual.toDual ((a.fee.toNat : ℚ) / a.weight.toNat))
        (OrderDual.toDual ((b.fee.toNat : ℚ) / b.weight.toNat)) := by
  have hlt : ∀ {x y : RankKey n}, x.weight ≠ 0 → y.weight ≠ 0 →
      ((x.fee.toNat : ℚ) / x.weight.toNat < (y.fee.toNat : ℚ) / y.weight.toNat ↔
        x.fee.toNat * y.weight.toNat < y.fee.toNat * x.weight.toNat) := by
    intro x y hx hy
    rw [div_lt_div_iff₀ (cast_pos hx) (cast_pos hy)]
    exact_mod_cast Iff.rfl
  rcases lt_trichotomy (b.fee.toNat * a.weight.toNat) (a.fee.toNat * b.weight.toNat)
    with hless | heq | hmore
  · rw [compare_lt_iff_lt.mpr hless, eq_comm, compare_lt_iff_lt, OrderDual.toDual_lt_toDual,
      hlt hb ha]
    exact hless
  · have hrates : (a.fee.toNat : ℚ) / a.weight.toNat = (b.fee.toNat : ℚ) / b.weight.toNat := by
      rcases lt_trichotomy ((a.fee.toNat : ℚ) / a.weight.toNat) (b.fee.toNat / b.weight.toNat)
        with h | h | h
      · rw [hlt ha hb] at h
        omega
      · exact h
      · rw [hlt hb ha] at h
        omega
    rw [compare_eq_iff_eq.mpr heq, hrates, eq_comm, compare_eq_iff_eq]
  · rw [compare_gt_iff_gt.mpr hmore, eq_comm, compare_gt_iff_gt, OrderDual.toDual_lt_toDual,
      hlt ha hb]
    exact hmore

/-- Numbers decide nothing, if hashes tell candidates apart. -/
theorem order_eq {a b : RankKey n} (hhash : a.hash = b.hash → a.id = b.id) :
    a.order b = (compare (b.fee.toNat * a.weight.toNat) (a.fee.toNat * b.weight.toNat)).then
      (compare a.hash b.hash) := by
  have htie : (compare a.hash b.hash).then (compare a.id.val b.id.val) = compare a.hash b.hash := by
    cases hcompare : compare a.hash b.hash with
    | lt => rfl
    | gt => rfl
    | eq =>
        have hvalue := Nat.compare_eq_eq.mp hcompare
        have hsame : a.hash = b.hash := Hash256.le_antisymm
          (Hash256.le_iff.mpr (Nat.le_of_eq hvalue)) (Hash256.le_iff.mpr (Nat.le_of_eq hvalue.symm))
        rw [hhash hsame]
        exact Nat.compare_eq_eq.mpr rfl
  rw [order, htie]

/-- Keys with weight are ordered by their standing, if hashes tell candidates apart. -/
theorem order_eq_compare {a b : RankKey n} (ha : a.weight ≠ 0) (hb : b.weight ≠ 0)
    (hhash : a.hash = b.hash → a.id = b.id) :
    a.order b = compare a.standing b.standing := by
  have hlex : compare a.standing b.standing =
      (compare (OrderDual.toDual ((a.fee.toNat : ℚ) / a.weight.toNat))
        (OrderDual.toDual ((b.fee.toNat : ℚ) / b.weight.toNat))).then (compare a.hash b.hash) := rfl
  rw [order_eq hhash, compare_cross ha hb, hlex]

theorem pairwise_mergeSort_standing (keys : List (RankKey n)) :
    (keys.mergeSort fun a b => a.standing ≤ b.standing).Pairwise
      fun a b => a.standing ≤ b.standing := by
  have hle : (keys.mergeSort fun a b => a.standing ≤ b.standing).Pairwise
      fun a b => decide (a.standing ≤ b.standing) = true :=
    List.pairwise_mergeSort (by simpa using fun a b c => le_trans)
      (by simpa using fun a b => le_total _ _) keys
  exact hle.imp of_decide_eq_true

end RankKey

theorem get_put {α : Type} {n : Nat} (table : Vector α n) (i j : Fin n) (entry : α) :
    (put table i entry).get j = if j = i then entry else table.get j := by
  simp only [put, Vector.get_eq_getElem, Vector.getElem_set, Fin.ext_iff, eq_comm]

namespace RankedQueue

variable {g : CandidateGraph} {q : RankedQueue g.size}

theorem standing_keyOf (p : Package) (id : Fin g.size) :
    (keyOf g p id).standing =
      toLex (OrderDual.toDual (CandidateGraph.exactRate p), (g.hash id).value.toNat) := rfl

theorem leads_iff_standing {package : Fin g.size → Package} {a b : Fin g.size} :
    g.leads package a b = true ↔
      (keyOf g (package a) a).standing ≤ (keyOf g (package b) b).standing := by
  rw [standing_keyOf, standing_keyOf, Prod.Lex.toLex_le_toLex, CandidateGraph.leads]
  simp only [OrderDual.toDual_lt_toDual, OrderDual.toDual_inj, Hash256.le_iff, Bool.decide_or,
    Bool.decide_and, Bool.or_eq_true, Bool.and_eq_true, decide_eq_true_eq]

theorem id_eq_of_standing (hg : g.Consistent) {p p' : Package} {a b : Fin g.size}
    (h : (keyOf g p a).standing = (keyOf g p' b).standing) : a = b := by
  have hvalue : (g.hash a).value.toNat = (g.hash b).value.toNat := congrArg (fun k => (ofLex k).2) h
  exact hg.hash_inj (Hash256.le_antisymm (Hash256.le_iff.mpr (Nat.le_of_eq hvalue))
    (Hash256.le_iff.mpr (Nat.le_of_eq hvalue.symm)))

/-! ## Coherence -/

/-- The places hold the current keys of the waiting candidates in order. -/
structure Coherent (q : RankedQueue g.size) : Prop where
  weighed : ∀ id : Fin g.size, q.waiting.get id = true → (q.modified.get id).weight ≠ 0
  increasing : q.places.keys.Pairwise fun a b => a.standing < b.standing
  mem_keys : ∀ {k}, k ∈ q.places.keys ↔ q.waiting.get k.id = true ∧ k = q.key k.id

theorem Coherent.key_mem_iff (h : q.Coherent) {id : Fin g.size} :
    q.key id ∈ q.places.keys ↔ q.waiting.get id = true := by
  rw [h.mem_keys]
  exact and_iff_left rfl

theorem Coherent.order_eq_compare (hg : g.Consistent) (h : q.Coherent) {p : Package}
    (hp : p.weight ≠ 0) (id : Fin g.size) :
    ∀ x ∈ q.places.keys, (keyOf g p id).order x = compare (keyOf g p id).standing x.standing := by
  intro x hx
  obtain ⟨hwaiting, hkey⟩ := h.mem_keys.mp hx
  have hweight : x.weight ≠ 0 := by
    rw [hkey]
    exact h.weighed x.id hwaiting
  refine RankKey.order_eq_compare hp hweight ?_
  intro hhash
  rw [hkey] at hhash
  exact hg.hash_inj hhash

/-- The standing of a waiting candidate's key is nobody else's. -/
theorem Coherent.standing_ne_iff (hg : g.Consistent) (h : q.Coherent) {p : Package}
    {id : Fin g.size} {x : RankKey g.size} (hx : x ∈ q.places.keys)
    (hp : x.id = id → p = q.modified.get id) :
    x.standing ≠ (keyOf g p id).standing ↔ x.id ≠ id := by
  have hkey := (h.mem_keys.mp hx).2
  refine not_congr ⟨?_, ?_⟩
  · intro heq
    rw [hkey] at heq
    exact id_eq_of_standing hg heq
  · intro heq
    rw [hkey, hp heq, heq]
    rfl

/-! ## Operations -/

theorem Coherent.keys_erase (hg : g.Consistent) (h : q.Coherent) {id : Fin g.size}
    (hwaiting : q.waiting.get id = true) :
    (q.places.erase RankKey.order (q.key id)).keys = q.places.keys.filter fun k => k.id ≠ id := by
  refine (BTree.keys_erase_of_ranked h.increasing
    (h.order_eq_compare hg (h.weighed id hwaiting) id)).trans (List.filter_congr ?_)
  intro x hx
  exact decide_eq_decide.mpr (h.standing_ne_iff hg hx fun _ => rfl)

theorem waiting_remove (id j : Fin g.size) :
    (q.remove id).waiting.get j = (q.waiting.get j && decide (j ≠ id)) := by
  unfold remove
  by_cases hid : j = id
  · subst hid
    split
    · simp [get_put]
    · simp_all
  · split
    · rw [get_put, if_neg hid]
      simp [hid]
    · simp [hid]

@[simp] theorem modified_remove (id : Fin g.size) : (q.remove id).modified = q.modified := by
  unfold remove
  split <;> rfl

theorem Coherent.remove (hg : g.Consistent) (h : q.Coherent) (id : Fin g.size) :
    (q.remove id).Coherent := by
  by_cases hwaiting : q.waiting.get id = true
  · have hkeys : (q.remove id).places.keys = q.places.keys.filter fun k => k.id ≠ id := by
      simp only [RankedQueue.remove, hwaiting, if_true]
      exact h.keys_erase hg hwaiting
    refine ⟨?_, ?_, ?_⟩
    · intro j hj
      rw [waiting_remove, Bool.and_eq_true] at hj
      rw [modified_remove]
      exact h.weighed j hj.1
    · rw [hkeys]
      exact h.increasing.filter _
    · intro k
      rw [hkeys, List.mem_filter, h.mem_keys, waiting_remove, Bool.and_eq_true]
      simp only [key, modified_remove]
      exact and_right_comm
  · simp only [RankedQueue.remove, hwaiting]
    exact h

@[simp] theorem waiting_reduce (included id : Fin g.size) :
    (q.reduce included id).waiting = q.waiting := rfl

theorem modified_reduce (included id j : Fin g.size) :
    (q.reduce included id).modified.get j =
      if j = id then (q.modified.get j).remove (g.tx included) else q.modified.get j := by
  simp only [reduce, get_put]
  split
  · rename_i heq
    rw [heq]
  · rfl

theorem places_reduce_of_not_waiting {included id : Fin g.size} (h : ¬q.waiting.get id = true) :
    (q.reduce included id).places = q.places := by
  simp only [reduce, h]
  rfl

/-- A waiting candidate moves to the place of its smaller package. -/
theorem Coherent.keys_reduce (hg : g.Consistent) (h : q.Coherent) {included id : Fin g.size}
    (hwaiting : q.waiting.get id = true)
    (hweight : ((q.modified.get id).remove (g.tx included)).weight ≠ 0) :
    (q.reduce included id).places.keys.Pairwise (fun a b => a.standing < b.standing) ∧
    ∀ x, x ∈ (q.reduce included id).places.keys ↔
      x = keyOf g ((q.modified.get id).remove (g.tx included)) id ∨ x ∈ q.places.keys ∧ x.id ≠ id := by
  have hremoved := h.remove hg id
  have hkeys : (q.remove id).places.keys = q.places.keys.filter fun x => x.id ≠ id := by
    simp only [RankedQueue.remove, hwaiting, if_true]
    exact h.keys_erase hg hwaiting
  have hplaces : (q.reduce included id).places = (q.remove id).places.insert RankKey.order
      (keyOf g ((q.modified.get id).remove (g.tx included)) id) := by
    simp only [reduce, RankedQueue.remove, hwaiting, if_true]
  have hnew : ∀ x ∈ (q.remove id).places.keys,
      x.standing ≠ (keyOf g ((q.modified.get id).remove (g.tx included)) id).standing := by
    intro x hx
    have hid : x.id ≠ id := by
      rw [hkeys] at hx
      exact of_decide_eq_true (List.mem_filter.mp hx).2
    exact (hremoved.standing_ne_iff hg hx fun heq => absurd heq hid).mpr hid
  rw [hplaces, BTree.keys_insert_of_ranked hremoved.increasing
    (hremoved.order_eq_compare hg hweight id) hnew]
  refine ⟨BTree.pairwise_insert_of_ranked hremoved.increasing, ?_⟩
  intro x
  rw [BTree.mem_insert_of_ranked hnew, hkeys, List.mem_filter, decide_eq_true_eq]

theorem Coherent.reduce (hg : g.Consistent) (h : q.Coherent) {included id : Fin g.size}
    (hweight : q.waiting.get id = true → ((q.modified.get id).remove (g.tx included)).weight ≠ 0) :
    (q.reduce included id).Coherent := by
  have hkey : ∀ j, (q.reduce included id).key j =
      keyOf g (if j = id then (q.modified.get j).remove (g.tx included) else q.modified.get j) j := by
    intro j
    rw [key, modified_reduce]
  refine ⟨?_, ?_, ?_⟩
  · intro j hj
    rw [modified_reduce]
    split
    · rename_i heq
      subst heq
      exact hweight hj
    · exact h.weighed j hj
  · by_cases hwaiting : q.waiting.get id = true
    · exact (h.keys_reduce hg hwaiting (hweight hwaiting)).1
    · rw [places_reduce_of_not_waiting hwaiting]
      exact h.increasing
  · intro k
    rw [waiting_reduce, hkey]
    by_cases hid : k.id = id
    · subst hid
      rw [if_pos rfl]
      by_cases hwaiting : q.waiting.get k.id = true
      · rw [(h.keys_reduce hg hwaiting (hweight hwaiting)).2]
        simp [hwaiting]
      · rw [places_reduce_of_not_waiting hwaiting, h.mem_keys]
        simp [hwaiting]
    · rw [if_neg hid]
      by_cases hwaiting : q.waiting.get id = true
      · rw [(h.keys_reduce hg hwaiting (hweight hwaiting)).2, h.mem_keys, and_iff_left hid,
          or_iff_right]
        · rfl
        · exact fun heq => hid (congrArg RankKey.id heq)
      · rw [places_reduce_of_not_waiting hwaiting, h.mem_keys]
        rfl

/-- A transaction that entered the block leaves the packages of its descendants outside. -/
theorem Coherent.onIncluded (hg : g.Consistent) (h : q.Coherent) {included : Fin g.size}
    {inBlock : Vector Bool g.size}
    (hweight : ∀ id ∈ g.descendantsOf included, inBlock.get id = false → q.waiting.get id = true →
      ((q.modified.get id).remove (g.tx included)).weight ≠ 0) :
    (q.onIncluded included inBlock).Coherent ∧
    (q.onIncluded included inBlock).waiting = q.waiting ∧
    ∀ j, (q.onIncluded included inBlock).modified.get j =
      if j ∈ g.descendantsOf included ∧ inBlock.get j = false then
        (q.modified.get j).remove (g.tx included)
      else q.modified.get j := by
  have hnodup := hg.descendants_nodup included
  unfold RankedQueue.onIncluded
  generalize g.descendantsOf included = below at hweight hnodup
  induction below generalizing q with
  | nil => exact ⟨h, rfl, fun j => by simp⟩
  | cons d below ih =>
      obtain ⟨hd, hnodup⟩ := List.nodup_cons.mp hnodup
      rw [List.foldl_cons]
      by_cases hin : inBlock.get d = true
      · rw [if_pos hin]
        obtain ⟨hcoherent, hwaiting, hmodified⟩ :=
          ih h (fun id hid => hweight id (List.mem_cons_of_mem d hid)) hnodup
        refine ⟨hcoherent, hwaiting, ?_⟩
        intro j
        rw [hmodified]
        by_cases hj : j = d
        · subst hj
          simp [hin]
        · simp [hj]
      · rw [if_neg hin]
        have hout : inBlock.get d = false := Bool.eq_false_iff.mpr hin
        have hkeep : ∀ id ∈ below, (q.reduce included d).modified.get id = q.modified.get id := by
          intro id hid
          rw [modified_reduce, if_neg]
          rintro rfl
          exact hd hid
        have hreduced := h.reduce hg (hweight d (by simp) hout)
        obtain ⟨hcoherent, hwaiting, hmodified⟩ := ih hreduced (fun id hid => by
          rw [hkeep id hid]
          exact hweight id (List.mem_cons_of_mem d hid)) hnodup
        refine ⟨hcoherent, hwaiting, ?_⟩
        intro j
        rw [hmodified, modified_reduce]
        by_cases hj : j = d
        · subst hj
          simp [hd, hout]
        · simp [hj]

/-! ## The start and the best place -/

theorem key_start (id : Fin g.size) : (start g).key id = keyOf g (g.fullPackage id) id := by
  simp [key, start]

theorem fullPackage_weight_ne_zero (hg : g.Consistent) (id : Fin g.size) :
    (g.fullPackage id).weight ≠ 0 := by
  have hfull := g.toNat_fullPackage .weight id
  have hown : (g.tx id).weight.toNat ≠ 0 :=
    fun h => hg.weight_ne_zero id (UInt64.toNat_inj.mp h)
  intro hzero
  simp only [Figure.ofPackage, Figure.ofTx, hzero, CandidateGraph.total_cons, maxWord] at hfull
  simp at hfull
  omega

theorem weight_ne_zero_of_mem_start (hg : g.Consistent) {k : RankKey g.size}
    (h : k ∈ g.ids.map fun id => keyOf g (g.fullPackage id) id) : k.weight ≠ 0 := by
  obtain ⟨id, -, rfl⟩ := List.mem_map.mp h
  exact fullPackage_weight_ne_zero hg id

/-- Sorting the first keys is sorting by standing, since all of them have weight. -/
theorem keys_start (hg : g.Consistent) :
    (start g).places.keys = (g.ids.map fun id => keyOf g (g.fullPackage id) id).mergeSort
      fun a b => a.standing ≤ b.standing := by
  have hkeys : (start g).places.keys = (g.ids.map fun id => keyOf g (g.fullPackage id) id).mergeSort
      fun a b => (a.order b).isLE := by
    simp [start]
  rw [hkeys]
  refine (List.map_id _).symm.trans ((List.map_mergeSort ?_).trans (by rw [List.map_id]))
  intro a ha b hb
  rw [RankKey.order_eq_compare (weight_ne_zero_of_mem_start hg ha)
    (weight_ne_zero_of_mem_start hg hb), Bool.eq_iff_iff, decide_eq_true_eq, id, id,
    ← compare_le_iff_le, Ordering.isLE_iff_ne_gt]
  · obtain ⟨i, -, rfl⟩ := List.mem_map.mp ha
    obtain ⟨j, -, rfl⟩ := List.mem_map.mp hb
    exact hg.hash_inj

theorem Coherent.start (hg : g.Consistent) : (start g).Coherent := by
  have hdistinct : (g.ids.map fun id => keyOf g (g.fullPackage id) id).Pairwise
      fun a b => a.standing ≠ b.standing := by
    rw [List.pairwise_map]
    exact (List.nodup_finRange _).imp fun hne heq => hne (id_eq_of_standing hg heq)
  refine ⟨?_, ?_, ?_⟩
  · intro id _
    simpa [RankedQueue.start] using fullPackage_weight_ne_zero hg id
  · rw [keys_start hg]
    have hle := RankKey.pairwise_mergeSort_standing
      (g.ids.map fun id => keyOf g (g.fullPackage id) id)
    have hne := (List.mergeSort_perm (g.ids.map fun id => keyOf g (g.fullPackage id) id)
      fun a b => a.standing ≤ b.standing).symm.pairwise hdistinct fun h => h.symm
    refine (hle.and hne).imp ?_
    intro a b hab
    exact lt_of_le_of_ne hab.1 hab.2
  · intro k
    rw [keys_start hg, List.mem_mergeSort, List.mem_map, key_start]
    constructor
    · rintro ⟨id, -, rfl⟩
      exact ⟨by simp [RankedQueue.start], rfl⟩
    · rintro ⟨-, hk⟩
      exact ⟨k.id, List.mem_finRange _, hk.symm⟩

theorem Coherent.pop?_eq_none_iff (h : q.Coherent) :
    q.pop? = none ↔ ∀ id : Fin g.size, q.waiting.get id = false := by
  unfold pop?
  cases hkeys : q.places.keys with
  | nil =>
      simp only [true_iff]
      intro id
      have hout : q.key id ∉ q.places.keys := by simp [hkeys]
      rwa [h.key_mem_iff, Bool.not_eq_true] at hout
  | cons k rest =>
      have hwaiting : q.waiting.get k.id = true := (h.mem_keys.mp (by simp [hkeys])).1
      simp only [reduceCtorEq, false_iff]
      intro hall
      rw [hall k.id] at hwaiting
      contradiction

/-- The best place is taken by a candidate that leads all that wait. -/
theorem Coherent.pop? (h : q.Coherent) {head : Fin g.size} {q' : RankedQueue g.size}
    (hpop : q.pop? = some (head, q')) :
    q'.Coherent ∧ q'.modified = q.modified ∧ q.waiting.get head = true ∧
    (∀ id, q'.waiting.get id = (q.waiting.get id && decide (id ≠ head))) ∧
    ∀ id, q.waiting.get id = true → id ≠ head → (q.key head).standing < (q.key id).standing := by
  unfold RankedQueue.pop? at hpop
  cases hkeys : q.places.keys with
  | nil => simp [hkeys] at hpop
  | cons k rest =>
      simp only [hkeys, Option.some.injEq, Prod.mk.injEq] at hpop
      obtain ⟨rfl, rfl⟩ := hpop
      have hincreasing := h.increasing
      rw [hkeys, List.pairwise_cons] at hincreasing
      obtain ⟨hwaiting, hk⟩ := h.mem_keys.mp (by simp [hkeys] : k ∈ q.places.keys)
      have hrest : ∀ x, x ∈ rest ↔ x ∈ q.places.keys ∧ x.id ≠ k.id := by
        intro x
        rw [hkeys, List.mem_cons]
        refine ⟨fun hx => ⟨.inr hx, fun hid => ?_⟩, fun hx => hx.1.resolve_left ?_⟩
        · have hx' := (h.mem_keys.mp (by simp [hkeys, hx] : x ∈ q.places.keys)).2
          rw [hid, ← hk] at hx'
          exact lt_irrefl _ (hx' ▸ hincreasing.1 x hx)
        · rintro rfl
          exact hx.2 rfl
      have hrestKeys : (q.places.eraseAt 0).keys = rest := by
        rw [BTree.keys_eraseAt, hkeys, List.eraseIdx_zero, List.tail_cons]
      have hflags : ∀ id, (put q.waiting k.id false).get id =
          (q.waiting.get id && decide (id ≠ k.id)) := by
        intro id
        rw [get_put]
        by_cases hid : id = k.id
        · rw [if_pos hid, decide_eq_false (not_not.mpr hid), Bool.and_false]
        · rw [if_neg hid, decide_eq_true hid, Bool.and_true]
      refine ⟨⟨?_, ?_, ?_⟩, rfl, hwaiting, hflags, ?_⟩
      · intro id hid
        simp only [hflags, Bool.and_eq_true] at hid
        exact h.weighed id hid.1
      · simp only [hrestKeys]
        exact hincreasing.2
      · intro x
        simp only [hrestKeys, hrest, h.mem_keys, hflags, Bool.and_eq_true, decide_eq_true_eq]
        exact and_right_comm
      · intro id hid hne
        rw [← hk]
        exact hincreasing.1 _ ((hrest _).mpr ⟨h.key_mem_iff.mpr hid, hne⟩)

end RankedQueue

end BlockProduction

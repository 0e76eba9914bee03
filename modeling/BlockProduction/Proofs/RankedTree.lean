import BlockProduction.BTree
import Mathlib

/-!
# Trees of ranked keys

Keys that stand in a tree in the order of a rank.  As long as the comparison of
a key with the keys of the tree is the comparison of ranks, removing it takes
out exactly the keys of its rank, and entering it puts it behind the lower ones.
-/

namespace BlockProduction.BTree

variable {α β : Type} [LinearOrder β] {rank : α → β} {v : β}

/-! ## Searching for a rank -/

theorem divides_of_ranked {keys : List α} {test : α → Ordering}
    (hsorted : keys.Pairwise fun a b => rank a < rank b)
    (htest : ∀ x ∈ keys, test x = compare v (rank x)) : Divides test keys := by
  refine hsorted.imp_of_mem ?_
  intro a b ha hb hlt hpassed
  rw [htest a ha, ne_eq, compare_gt_iff_gt, not_lt] at hpassed
  rw [htest b hb, compare_lt_iff_lt]
  exact lt_of_le_of_lt hpassed hlt

private theorem filter_ne_of_lt {keys : List α} (h : ∀ x ∈ keys, v < rank x) :
    keys.filter (fun x => rank x ≠ v) = keys := by
  rw [List.filter_eq_self]
  intro x hx
  exact decide_eq_true (ne_of_gt (h x hx))

/-- Where a search for a rank ends, there stands its key. -/
theorem erase_scan_of_ranked {keys : List α} {test : α → Ordering}
    (hsorted : keys.Pairwise fun a b => rank a < rank b)
    (htest : ∀ x ∈ keys, test x = compare v (rank x)) :
    (match scan test keys with
      | .found i => keys.eraseIdx i
      | .gap _ => keys) = keys.filter fun x => rank x ≠ v := by
  induction keys with
  | nil => rfl
  | cons x rest ih =>
      obtain ⟨hfirst, hrest⟩ := List.pairwise_cons.mp hsorted
      have hx : test x = compare v (rank x) := htest x (by simp)
      have ih := ih hrest fun y hy => htest y (by simp [hy])
      rcases lt_trichotomy v (rank x) with hlt | heq | hgt
      · have hall : ∀ y ∈ x :: rest, v < rank y := by
          intro y hy
          rcases List.mem_cons.mp hy with rfl | hy
          · exact hlt
          · exact lt_trans hlt (hfirst y hy)
        rw [filter_ne_of_lt hall]
        simp only [scan, hx, compare_lt_iff_lt.mpr hlt]
      · have hall : ∀ y ∈ rest, v < rank y := by
          intro y hy
          rw [heq]
          exact hfirst y hy
        rw [List.filter_cons_of_neg (by simp [heq]), filter_ne_of_lt hall]
        simp only [scan, hx, compare_eq_iff_eq.mpr heq, List.eraseIdx_zero, List.tail_cons]
      · rw [List.filter_cons_of_pos (by simpa using ne_of_lt hgt), ← ih]
        simp only [scan, hx, compare_gt_iff_gt.mpr hgt]
        cases scan test rest with
        | found i => simp only [Place.shift, Nat.add_comm 1 i, List.eraseIdx_cons_succ]
        | gap i => rfl

/-- A search for a rank that no key has ends behind the lower ones. -/
theorem insert_scan_of_ranked {keys : List α} {test : α → Ordering} (k : α)
    (hsorted : keys.Pairwise fun a b => rank a < rank b)
    (htest : ∀ x ∈ keys, test x = compare v (rank x)) (hnew : ∀ x ∈ keys, rank x ≠ v) :
    (match scan test keys with
      | .found _ => keys
      | .gap i => keys.insertIdx i k) =
      keys.filter (fun x => rank x < v) ++ k :: keys.filter fun x => v < rank x := by
  induction keys with
  | nil => rfl
  | cons x rest ih =>
      obtain ⟨hfirst, hrest⟩ := List.pairwise_cons.mp hsorted
      have hx : test x = compare v (rank x) := htest x (by simp)
      have ih := ih hrest (fun y hy => htest y (by simp [hy])) fun y hy => hnew y (by simp [hy])
      rcases lt_trichotomy v (rank x) with hlt | heq | hgt
      · have hall : ∀ y ∈ x :: rest, v < rank y := by
          intro y hy
          rcases List.mem_cons.mp hy with rfl | hy
          · exact hlt
          · exact lt_trans hlt (hfirst y hy)
        have hlower : (x :: rest).filter (fun y => rank y < v) = [] := by
          rw [List.filter_eq_nil_iff]
          intro y hy
          simpa using le_of_lt (hall y hy)
        have hhigher : (x :: rest).filter (fun y => v < rank y) = x :: rest := by
          rw [List.filter_eq_self]
          intro y hy
          exact decide_eq_true (hall y hy)
        rw [hlower, hhigher]
        simp only [scan, hx, compare_lt_iff_lt.mpr hlt, List.insertIdx_zero, List.nil_append]
      · exact absurd heq.symm (hnew x (by simp))
      · rw [List.filter_cons_of_pos (by simpa using hgt),
          List.filter_cons_of_neg (by simpa using le_of_lt hgt), List.cons_append, ← ih]
        simp only [scan, hx, compare_gt_iff_gt.mpr hgt]
        cases scan test rest with
        | found i => rfl
        | gap i => simp only [Place.shift, Nat.add_comm 1 i, List.insertIdx_succ_cons]

/-! ## Entering and removing ranked keys -/

variable {t : BTree α} {order : α → α → Ordering} {k : α}

theorem keys_erase_of_ranked (hsorted : t.keys.Pairwise fun a b => rank a < rank b)
    (horder : ∀ x ∈ t.keys, order k x = compare (rank k) (rank x)) :
    (t.erase order k).keys = t.keys.filter fun x => rank x ≠ rank k := by
  rw [keys_erase, locate_eq_scan (divides_of_ranked hsorted horder)]
  exact erase_scan_of_ranked hsorted horder

theorem keys_insert_of_ranked (hsorted : t.keys.Pairwise fun a b => rank a < rank b)
    (horder : ∀ x ∈ t.keys, order k x = compare (rank k) (rank x))
    (hnew : ∀ x ∈ t.keys, rank x ≠ rank k) :
    (t.insert order k).keys =
      t.keys.filter (fun x => rank x < rank k) ++ k :: t.keys.filter fun x => rank k < rank x := by
  rw [keys_insert, locate_eq_scan (divides_of_ranked hsorted horder)]
  exact insert_scan_of_ranked k hsorted horder hnew

theorem mem_insert_of_ranked {keys : List α} (hnew : ∀ x ∈ keys, rank x ≠ rank k) (x : α) :
    (x ∈ keys.filter (fun x => rank x < rank k) ++ k :: keys.filter fun x => rank k < rank x) ↔
      x = k ∨ x ∈ keys := by
  simp only [List.mem_append, List.mem_cons, List.mem_filter, decide_eq_true_eq]
  constructor
  · rintro (⟨hx, -⟩ | rfl | ⟨hx, -⟩)
    · exact .inr hx
    · exact .inl rfl
    · exact .inr hx
  · rintro (rfl | hx)
    · exact .inr (.inl rfl)
    · rcases lt_or_gt_of_ne (hnew x hx) with hlt | hgt
      · exact .inl ⟨hx, hlt⟩
      · exact .inr (.inr ⟨hx, hgt⟩)

/-- The keys around an entered one stay in order. -/
theorem pairwise_insert_of_ranked {keys : List α}
    (hsorted : keys.Pairwise fun a b => rank a < rank b) :
    (keys.filter (fun x => rank x < rank k) ++ k :: keys.filter fun x => rank k < rank x).Pairwise
      fun a b => rank a < rank b := by
  refine List.pairwise_append.mpr ⟨hsorted.filter _, ?_, ?_⟩
  · refine List.pairwise_cons.mpr ⟨?_, hsorted.filter _⟩
    intro x hx
    exact of_decide_eq_true (List.mem_filter.mp hx).2
  · intro x hx y hy
    have hlower : rank x < rank k := of_decide_eq_true (List.mem_filter.mp hx).2
    rcases List.mem_cons.mp hy with rfl | hy
    · exact hlower
    · exact lt_trans hlower (of_decide_eq_true (List.mem_filter.mp hy).2)

end BlockProduction.BTree

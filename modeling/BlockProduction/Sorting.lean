/-!
# Sorting by a comparison

A sort is given a comparison.  Where it orders the entries of a list, they come
back in that order.  Where it does not, they come back in some order or other,
or the sort gives up.
-/

namespace BlockProduction

variable {α : Type} {le : α → α → Bool} {l sorted other : List α}

/-- A comparison is a linear order of the entries of a list. -/
structure Orders (le : α → α → Bool) (l : List α) : Prop where
  total : ∀ a ∈ l, ∀ b ∈ l, (le a b || le b a) = true
  trans : ∀ a ∈ l, ∀ b ∈ l, ∀ c ∈ l, le a b = true → le b c = true → le a c = true
  antisymm : ∀ a ∈ l, ∀ b ∈ l, le a b = true → le b a = true → a = b

namespace Orders

theorem reverse (h : Orders le l) : Orders (fun a b => le b a) l.reverse where
  total a ha b hb := h.total b (List.mem_reverse.mp hb) a (List.mem_reverse.mp ha)
  trans a ha b hb c hc hab hbc := h.trans c (List.mem_reverse.mp hc) b (List.mem_reverse.mp hb) a
    (List.mem_reverse.mp ha) hbc hab
  antisymm a ha b hb hab hba := h.antisymm a (List.mem_reverse.mp ha) b (List.mem_reverse.mp hb)
    hba hab

/-- There is only one order of the entries. -/
theorem eq_of_pairwise (h : Orders le l) (hsorted : sorted.Perm l) (hother : other.Perm l)
    (hle : sorted.Pairwise fun a b => le a b = true)
    (hle' : other.Pairwise fun a b => le a b = true) : sorted = other := by
  refine (hsorted.trans hother.symm).eq_of_pairwise ?_ hle hle'
  intro a b ha hb
  exact h.antisymm a (hsorted.mem_iff.mp ha) b (hother.mem_iff.mp hb)

theorem pairwise_mergeSort (h : Orders le l) :
    (l.mergeSort le).Pairwise fun a b => le a b = true := by
  -- the comparison is an order on the entries only, so these are sorted as members of the list
  have hmembers : l.mergeSort le =
      (l.attach.mergeSort fun a b => le a.val b.val).map Subtype.val := by
    rw [List.map_mergeSort (s := le) (f := Subtype.val) fun a _ b _ => rfl,
      List.attach_map_subtype_val]
  rw [hmembers, List.pairwise_map]
  exact List.pairwise_mergeSort
    (fun a b c => h.trans a.val a.property b.val b.property c.val c.property)
    (fun a b => h.total a.val a.property b.val b.property) l.attach

end Orders

/-- A sort, with what is relied on: entries are neither lost nor added, and where the comparison
orders them they come back in order. -/
structure Sorter (α : Type) where
  /-- The sorted entries, unless the sort gives up. -/
  sort? : (α → α → Bool) → List α → Option (List α)
  perm_of_sort? : ∀ {le l sorted}, sort? le l = some sorted → sorted.Perm l
  sort?_of_orders : ∀ {le l}, Orders le l →
    ∃ sorted, sort? le l = some sorted ∧ sorted.Pairwise fun a b => le a b = true

namespace Sorter

/-- Sort from the front and from the back.  A long list for which the two differ is given up. -/
def bothEnds [DecidableEq α] : Sorter α where
  sort? le l :=
    let front := l.mergeSort le
    let back := (l.reverse.mergeSort fun a b => le b a).reverse
    if l.length ≤ 20 ∨ front = back then some front else none
  perm_of_sort? := by
    intro le l sorted h
    dsimp only at h
    split at h
    · obtain rfl := Option.some.inj h
      exact List.mergeSort_perm l le
    · nomatch h
  sort?_of_orders := by
    intro le l h
    have hback : (l.reverse.mergeSort fun a b => le b a).reverse.Perm l :=
      (List.reverse_perm _).trans ((List.mergeSort_perm _ _).trans (List.reverse_perm l))
    have hsame := h.eq_of_pairwise (List.mergeSort_perm l le) hback h.pairwise_mergeSort
      (List.pairwise_reverse.mpr h.reverse.pairwise_mergeSort)
    exact ⟨_, if_pos (.inr hsame), h.pairwise_mergeSort⟩

end Sorter

end BlockProduction

import BlockProduction.BTree.Shape

/-!
# B-trees

Keys in a B-tree, searched with a comparison.  A search compares with the keys
of a node in turn and stops at the first that is not smaller, which either is
the key or has the subtree before it where the search goes on.

Main statement: when the comparison puts the keys in order, a search ends where
it would end if all keys stood in one node (`locate_eq_scan`).  A search with a
comparison that is no order is allowed as well, and then the shape of the tree
decides which keys are compared.
-/

namespace BlockProduction

inductive BTree.Place where
  /-- At the position of an equal key. -/
  | found (position : Nat)
  /-- At a gap. -/
  | gap (position : Nat)
  deriving DecidableEq

structure BTree (α : Type) where
  /-- The keys from left to right. -/
  keys : List α
  height : Nat
  shape : BTree.Shape height
  fits : shape.size = keys.length

namespace BTree

variable {α : Type}

/-- A place that is counted from `n` keys further to the left. -/
def Place.shift (n : Nat) : Place → Place
  | found position => found (n + position)
  | gap position => gap (n + position)

theorem Place.shift_shift (m n : Nat) (p : Place) :
    (p.shift n).shift m = p.shift (m + n) := by
  cases p <;> simp only [shift, Nat.add_assoc]

/-! ## Searching -/

/-- Search a list of keys.  `test` compares what is searched for with a key. -/
def scan (test : α → Ordering) : List α → Place
  | [] => .gap 0
  | k :: rest =>
      match test k with
      | .lt => .gap 0
      | .eq => .found 0
      | .gt => (scan test rest).shift 1

/-- Search a row of subtrees, each with `size` keys and searched by `go`, in a
list that begins with their keys. -/
def scanRow {β : Type} (test : α → Ordering) (size : β → Nat) (go : β → List α → Place) :
    List β → List α → Place
  | c :: d :: rest, keys =>
      match keys.drop (size c) with
      | [] => go c keys
      | k :: after =>
          match test k with
          | .lt => go c keys
          | .eq => .found (size c)
          | .gt => (scanRow test size go (d :: rest) after).shift (size c + 1)
  | [c], keys => go c keys
  | [], _ => .gap 0

/-- Search the keys of a shape in a list that begins with them. -/
def Shape.locate (test : α → Ordering) :
    {height : Nat} → Shape height → List α → Place
  | 0, Leaf.mk n, keys => scan test (keys.take n)
  | _ + 1, Branch.mk children, keys =>
      scanRow test Shape.size (fun child keys => child.locate test keys) children keys

def locate (t : BTree α) (test : α → Ordering) : Place :=
  t.shape.locate test t.keys

/-! ## Entering and removing keys -/

/-- Keys in a shape; if it has another size they stand in a single node. -/
def arrange (keys : List α) (s : AnyShape) : BTree α :=
  if h : s.2.size = keys.length then ⟨keys, s.1, s.2, h⟩
  else ⟨keys, 0, Leaf.mk keys.length, rfl⟩

@[simp] theorem keys_arrange (keys : List α) (s : AnyShape) : (arrange keys s).keys = keys := by
  unfold arrange
  split <;> rfl

/-- The tree that is built from keys in order. -/
def ofList (keys : List α) : BTree α :=
  arrange keys (Shape.ofSize keys.length)

@[simp] theorem keys_ofList (keys : List α) : (ofList keys).keys = keys :=
  keys_arrange keys _

def eraseAt (t : BTree α) (position : Nat) : BTree α :=
  arrange (t.keys.eraseIdx position) (t.shape.eraseAt position).shrink

@[simp] theorem keys_eraseAt (t : BTree α) (position : Nat) :
    (t.eraseAt position).keys = t.keys.eraseIdx position :=
  keys_arrange _ _

/-- Enter a key at its place, unless an equal key is there. -/
def insert (t : BTree α) (order : α → α → Ordering) (k : α) : BTree α :=
  match t.locate (order k) with
  | .found _ => t
  | .gap i => arrange (t.keys.insertIdx i k) (Shape.grow (t.shape.insertAt i))

theorem keys_insert (t : BTree α) (order : α → α → Ordering) (k : α) :
    (t.insert order k).keys =
      match t.locate (order k) with
      | .found _ => t.keys
      | .gap i => t.keys.insertIdx i k := by
  unfold insert
  cases t.locate (order k) with
  | found _ => rfl
  | gap i => exact keys_arrange _ _

/-- Remove the key equal to the given one from its place, if it is there. -/
def erase (t : BTree α) (order : α → α → Ordering) (k : α) : BTree α :=
  match t.locate (order k) with
  | .found i => t.eraseAt i
  | .gap _ => t

theorem keys_erase (t : BTree α) (order : α → α → Ordering) (k : α) :
    (t.erase order k).keys =
      match t.locate (order k) with
      | .found i => t.keys.eraseIdx i
      | .gap _ => t.keys := by
  unfold erase
  cases t.locate (order k) with
  | found i => exact keys_eraseAt t i
  | gap _ => rfl

/-! ## The shape does not show -/

/-- What is searched for stands, as far as `test` tells, at one place of a list:
behind a key that is not passed there are only larger ones. -/
def Divides (test : α → Ordering) (keys : List α) : Prop :=
  keys.Pairwise fun a b => test a ≠ .gt → test b = .lt

theorem scan_append_of_lt {test : α → Ordering} {k : α} (hk : test k = .lt) (xs ys : List α) :
    scan test (xs ++ k :: ys) = scan test xs := by
  induction xs with
  | nil => simp [scan, hk]
  | cons x xs ih => simp only [List.cons_append, scan, ih]

theorem scan_append_of_passed {test : α → Ordering} {xs : List α}
    (hxs : ∀ x ∈ xs, test x = .gt) (ys : List α) :
    scan test (xs ++ ys) = (scan test ys).shift xs.length := by
  induction xs with
  | nil => cases hscan : scan test ys <;> simp [Place.shift, hscan]
  | cons x xs ih =>
      have hx : test x = .gt := hxs x (by simp)
      have hrest := ih fun y hy => hxs y (by simp [hy])
      simp only [List.cons_append, scan, hx, hrest, List.length_cons]
      cases scan test ys <;> simp only [Place.shift, Place.found.injEq, Place.gap.injEq] <;> omega

/-- The keys before one that is not larger than what is searched for are passed. -/
theorem Divides.passed {test : α → Ordering} {xs ys : List α} {k : α}
    (h : Divides test (xs ++ k :: ys)) (hk : test k ≠ .lt) : ∀ x ∈ xs, test x = .gt := by
  intro x hx
  have hpair := (List.pairwise_append.mp h).2.2 x hx k (by simp)
  by_cases hgt : test x = .gt
  · exact hgt
  · exact absurd (hpair hgt) hk

/-- A search of a row ends where a search of its keys in one node does. -/
theorem scanRow_eq_scan {β : Type} {test : α → Ordering} {size : β → Nat}
    {go : β → List α → Place}
    (hgo : ∀ c keys, size c ≤ keys.length → Divides test keys →
      go c keys = scan test (keys.take (size c)))
    {row : List β} {keys : List α} (hfits : total (row.map size) ≤ keys.length)
    (hdivides : Divides test keys) :
    scanRow test size go row keys = scan test (keys.take (total (row.map size))) := by
  induction row generalizing keys with
  | nil => simp [scanRow, total, scan]
  | cons c row ih =>
      cases row with
      | nil => exact hgo c keys hfits hdivides
      | cons d rest =>
          have htotal : total ((c :: d :: rest).map size)
              = size c + (total ((d :: rest).map size) + 1) := by
            simp only [List.map_cons, total]
            omega
          rw [htotal] at hfits ⊢
          have hsplit := List.take_append_drop (size c) keys
          have hlength : (keys.take (size c)).length = size c := by
            rw [List.length_take]
            omega
          have hchild := hgo c keys (by omega) hdivides
          cases hdrop : keys.drop (size c) with
          | nil =>
              have := congrArg List.length hdrop
              simp only [List.length_drop, List.length_nil] at this
              omega
          | cons k after =>
              have hafter : total ((d :: rest).map size) ≤ after.length := by
                have := congrArg List.length hdrop
                simp only [List.length_drop, List.length_cons] at this
                omega
              rw [hdrop] at hsplit
              rw [← hsplit] at hdivides
              have htake : keys.take (size c + (total ((d :: rest).map size) + 1))
                  = keys.take (size c) ++ k :: after.take (total ((d :: rest).map size)) := by
                rw [List.take_add, hdrop, List.take_succ_cons]
              rw [scanRow, hdrop, htake]
              cases hk : test k with
              | lt => simp only [hk, scan_append_of_lt hk, hchild]
              | eq =>
                  have hpassed := hdivides.passed (by simp [hk])
                  rw [scan_append_of_passed hpassed, hlength]
                  simp [scan, hk, Place.shift]
              | gt =>
                  have hpassed := hdivides.passed (by simp [hk])
                  have hrest : Divides test after :=
                    (List.pairwise_cons.mp (List.pairwise_append.mp hdivides).2.1).2
                  rw [scan_append_of_passed hpassed, hlength]
                  simp only [ih hafter hrest, scan, hk, Place.shift_shift]

/-- The shape does not show in a search among keys in order. -/
theorem Shape.locate_eq_scan {test : α → Ordering} {height : Nat} (s : Shape height)
    {keys : List α} (hfits : s.size ≤ keys.length) (hdivides : Divides test keys) :
    s.locate test keys = scan test (keys.take s.size) := by
  induction height generalizing keys with
  | zero => rfl
  | succ height ih =>
      exact scanRow_eq_scan (fun child keys => ih child) hfits hdivides

theorem locate_eq_scan {t : BTree α} {test : α → Ordering} (h : Divides test t.keys) :
    t.locate test = scan test t.keys := by
  have hfits := t.fits
  rw [locate, Shape.locate_eq_scan t.shape (by omega) h, hfits, List.take_length]

end BTree

end BlockProduction

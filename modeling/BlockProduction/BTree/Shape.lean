/-!
# Shapes of B-trees

A B-tree of minimum degree six holds its keys in nodes of at most eleven.  A
branch with `k` keys has `k + 1` subtrees of one height, and one key between
every two neighbours.

A shape is such a tree without its keys: since the keys stand in it from left to
right, a list of keys and a shape of the same size are a tree.  Where keys come
and go is counted from the left.  A position names a key; a gap is the place
before the key at that position, or the end.
-/

namespace BlockProduction.BTree

/-- The number of keys that a node holds at most. -/
def capacity : Nat := 11

/-- The number of keys that a node below the root holds at least. -/
def minWidth : Nat := 5

structure Leaf where
  /-- The number of its keys. -/
  keys : Nat

structure Branch (α : Type) where
  /-- The subtrees from left to right. -/
  children : List α

/-- Shapes of one height: the nodes of one level stand over those of the next. -/
def Shape : (height : Nat) → Type
  | 0 => Leaf
  | height + 1 => Branch (Shape height)

abbrev AnyShape := (height : Nat) × Shape height

/-! ## Rows of subtrees -/

/-- The number of keys of a row of subtrees with one key between neighbours. -/
def total : (sizes : List Nat) → Nat
  | [] => 0
  | [n] => n
  | n :: rest => n + 1 + total rest

/-- The subtree in which a gap of a row lies, and the gap within it. -/
def childAt : (sizes : List Nat) → (gap : Nat) → Nat × Nat
  | n :: m :: rest, gap =>
      if gap ≤ n then (0, gap)
      else
        let (j, inner) := childAt (m :: rest) (gap - n - 1)
        (j + 1, inner)
  | _, gap => (0, gap)

/-- The number of keys that stay in the left one of two nodes when a full node
is split because a key enters it at index `i`.  The key that goes up is never
the new one. -/
def leftWidth (i : Nat) : Nat :=
  if i = minWidth ∨ minWidth + 1 < i then minWidth + 1 else minWidth

/-- The widths of the nodes of one level with `n` keys in and between them: all
are full but the last, which borrows from its neighbour when it is too narrow. -/
def levelWidths (n : Nat) : List Nat :=
  let full := n / (capacity + 1)
  let last := n % (capacity + 1)
  if full = 0 ∨ minWidth ≤ last then List.replicate full capacity ++ [last]
  else List.replicate (full - 1) capacity ++ [capacity + last - minWidth, minWidth]

/-- Cut a row of subtrees into branches of the given widths. -/
def branches {height : Nat} :
    (widths : List Nat) → List (Shape height) → List (Shape (height + 1))
  | [], _ => []
  | w :: widths, row => Branch.mk (row.take (w + 1)) :: branches widths (row.drop (w + 1))

namespace Shape

def size : {height : Nat} → Shape height → Nat
  | 0, Leaf.mk keys => keys
  | _ + 1, Branch.mk children => total (children.map size)

def width : {height : Nat} → Shape height → Nat
  | 0, Leaf.mk keys => keys
  | _ + 1, Branch.mk children => children.length - 1

/-! ## Entering keys -/

/-- Enter a key at a gap.  The shape grows, or it splits into two with a key
between them. -/
def insertAt : {height : Nat} → Shape height → (gap : Nat) → List (Shape height)
  | 0, Leaf.mk keys, gap =>
      if keys < capacity then [Leaf.mk (keys + 1)]
      else [Leaf.mk (leftWidth gap), Leaf.mk (keys - leftWidth gap)]
  | _ + 1, Branch.mk children, gap =>
      let (j, inner) := childAt (children.map size) gap
      let grown := ((children.drop j).take 1).flatMap fun child => child.insertAt inner
      let children := children.take j ++ grown ++ children.drop (j + 1)
      if children.length ≤ capacity + 1 then [Branch.mk children]
      else
        [Branch.mk (children.take (leftWidth j + 1)),
          Branch.mk (children.drop (leftWidth j + 1))]

/-- A root over a row of shapes, unless there is only one. -/
def grow {height : Nat} : List (Shape height) → AnyShape
  | [s] => ⟨height, s⟩
  | row => ⟨height + 1, Branch.mk row⟩

/-! ## Removing keys -/

/-- Two neighbours and the key between them in one node. -/
def join : {height : Nat} → Shape height → Shape height → Shape height
  | 0, Leaf.mk l, Leaf.mk r => Leaf.mk (l + 1 + r)
  | _ + 1, Branch.mk l, Branch.mk r => Branch.mk (l ++ r)

/-- Two neighbours, the left of which has given a key, and the subtree beside
it, to the right one. -/
def shiftRight : {height : Nat} → Shape height → Shape height → List (Shape height)
  | 0, Leaf.mk l, Leaf.mk r => [Leaf.mk (l - 1), Leaf.mk (r + 1)]
  | _ + 1, Branch.mk l, Branch.mk r =>
      [Branch.mk (l.take (l.length - 1)), Branch.mk (l.drop (l.length - 1) ++ r)]

/-- Two neighbours, the right of which has given a key, and the subtree beside
it, to the left one. -/
def shiftLeft : {height : Nat} → Shape height → Shape height → List (Shape height)
  | 0, Leaf.mk l, Leaf.mk r => [Leaf.mk (l + 1), Leaf.mk (r - 1)]
  | _ + 1, Branch.mk l, Branch.mk r => [Branch.mk (l ++ r.take 1), Branch.mk (r.drop 1)]

/-- Mend the subtree at an index of a row if it has become too narrow: it is
joined with its left neighbour or, if it is the first, with the right one; when
both do not fit into one node, that neighbour gives it a key instead. -/
def mend {height : Nat} : (index : Nat) → List (Shape height) → List (Shape height)
  | 0, child :: r :: rest =>
      if minWidth ≤ child.width then child :: r :: rest
      else if child.width + 1 + r.width ≤ capacity then child.join r :: rest
      else child.shiftLeft r ++ rest
  | 1, l :: child :: rest =>
      if minWidth ≤ child.width then l :: child :: rest
      else if l.width + 1 + child.width ≤ capacity then l.join child :: rest
      else l.shiftRight child ++ rest
  | index + 2, l :: rest => l :: mend (index + 1) rest
  | _, row => row

/-- Take out the key at a position.  A key between two subtrees is replaced by
the last key of the left one. -/
def eraseAt : {height : Nat} → Shape height → (position : Nat) → Shape height
  | 0, Leaf.mk keys, _ => Leaf.mk (keys - 1)
  | _ + 1, Branch.mk children, position =>
      let (j, inner) := childAt (children.map size) position
      let left := ((children.drop j).take 1).map fun child =>
        child.eraseAt (min inner (child.size - 1))
      Branch.mk (mend j (children.take j ++ left ++ children.drop (j + 1)))

/-- A root with a single subtree gives way to it. -/
def shrink : {height : Nat} → Shape height → AnyShape
  | height + 1, Branch.mk [child] => ⟨height, child⟩
  | height, s => ⟨height, s⟩

/-! ## Building -/

/-- Put branches over a row of shapes until there is a root.  Each level has
fewer nodes than the one below, and `fuel` bounds the number of levels. -/
def raise : (fuel : Nat) → {height : Nat} → List (Shape height) → AnyShape
  | fuel + 1, _, l :: r :: rest =>
      raise fuel (branches (levelWidths (rest.length + 1)) (l :: r :: rest))
  | _, _, row => grow row

/-- The shape of a tree that is built from `n` keys in order. -/
def ofSize (n : Nat) : AnyShape :=
  let leaves : List (Shape 0) := (levelWidths n).map Leaf.mk
  raise leaves.length leaves

end Shape

end BlockProduction.BTree

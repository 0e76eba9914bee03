import BlockProduction.BTree
import BlockProduction.Pool.Graph

/-!
# The ranked queue

Candidates wait in the order of the fee rates of their packages, where a package
is a candidate with those of its ancestors that are not in the block.  When a
candidate enters the block, it leaves the packages of its descendants, and those
that wait move to their new places.

The places are held in a B-tree.  Packages that have neither a fee nor a weight
are at the same fee rate as all others, so that the order of places is no order
once such a package waits.
-/

namespace BlockProduction

/-- A table with a new entry for one candidate. -/
def put {α : Type} {n : Nat} (table : Vector α n) (id : Fin n) (entry : α) : Vector α n :=
  table.set id entry id.isLt

/-- A place in the queue: the fee and weight of a package, and its candidate. -/
structure RankKey (n : Nat) where
  fee : UInt64
  weight : UInt64
  hash : Hash256
  id : Fin n
  deriving DecidableEq

namespace RankKey

variable {n : Nat}

/-- The higher fee rate first, then the lower hash, then the lower number. -/
def order (a b : RankKey n) : Ordering :=
  (compare (b.fee.toNat * a.weight.toNat) (a.fee.toNat * b.weight.toNat)).then
    ((compare a.hash b.hash).then (compare a.id.val b.id.val))

end RankKey

/-- The waiting candidates and the sums of all packages. -/
structure RankedQueue (n : Nat) where
  /-- The keys of the waiting candidates, the best first. -/
  places : BTree (RankKey n)
  /-- The package of each candidate with those ancestors that are not in the block. -/
  modified : Vector Package n
  /-- Whether a candidate waits. -/
  waiting : Vector Bool n

namespace RankedQueue

/-- The key of a candidate with a package. -/
def keyOf (g : CandidateGraph) (p : Package) (id : Fin g.size) : RankKey g.size :=
  ⟨p.fee, p.weight, g.hash id, id⟩

/-- The queue in which every candidate waits with all its ancestors. -/
def start (g : CandidateGraph) : RankedQueue g.size :=
  let modified := Vector.ofFn g.fullPackage
  let keys := g.ids.map fun id => keyOf g (modified.get id) id
  { places := .ofList (keys.mergeSort fun a b => (a.order b).isLE)
    modified
    waiting := Vector.replicate g.size true }

variable {g : CandidateGraph}

def key (q : RankedQueue g.size) (id : Fin g.size) : RankKey g.size :=
  keyOf g (q.modified.get id) id

def length (q : RankedQueue g.size) : Nat :=
  q.places.keys.length

def isEmpty (q : RankedQueue g.size) : Bool :=
  q.places.keys.isEmpty

def pop? (q : RankedQueue g.size) : Option (Fin g.size × RankedQueue g.size) :=
  match q.places.keys with
  | [] => none
  | k :: _ =>
      some (k.id, { q with places := q.places.eraseAt 0, waiting := put q.waiting k.id false })

/-- Take a candidate, if it waits. -/
def remove (q : RankedQueue g.size) (id : Fin g.size) : RankedQueue g.size :=
  if q.waiting.get id then
    { q with
      places := q.places.erase RankKey.order (q.key id)
      waiting := put q.waiting id false }
  else q

/-- Take a transaction out of the package of one candidate. -/
def reduce (q : RankedQueue g.size) (included id : Fin g.size) : RankedQueue g.size :=
  let smaller := (q.modified.get id).remove (g.tx included)
  let places :=
    if q.waiting.get id then
      (q.places.erase RankKey.order (q.key id)).insert RankKey.order (keyOf g smaller id)
    else q.places
  { q with places, modified := put q.modified id smaller }

/-- A candidate has entered the block: it leaves the packages of those of its
descendants that are not in the block themselves. -/
def onIncluded (q : RankedQueue g.size) (included : Fin g.size) (inBlock : Vector Bool g.size) :
    RankedQueue g.size :=
  (g.descendantsOf included).foldl
    (fun q id => if inBlock.get id then q else q.reduce included id) q

/-- Empty the queue: the candidates in the order in which they leave it. -/
def drain (q : RankedQueue g.size) : List (Fin g.size) × RankedQueue g.size :=
  let order := q.places.keys.map (·.id)
  let waiting := order.foldl (fun flags id => put flags id false) q.waiting
  (order, { q with places := .ofList [], waiting })

end RankedQueue

end BlockProduction

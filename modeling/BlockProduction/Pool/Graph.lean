import BlockProduction.Error
import BlockProduction.Package
import BlockProduction.Pool.View

/-!
# Candidate graphs

The candidates of one round, numbered in the order of their hashes, with their
ancestors and descendants as increasing lists of numbers.  A graph is built
from a pool view only if the view is consistent.
-/

namespace BlockProduction

structure CandidateGraph where
  size : Nat
  txs : Vector Candidate size
  ancestors : Vector (List (Fin size)) size
  descendants : Vector (List (Fin size)) size

namespace CandidateGraph

def tx (g : CandidateGraph) (id : Fin g.size) : Candidate :=
  g.txs.get id

def hash (g : CandidateGraph) (id : Fin g.size) : Hash256 :=
  (g.tx id).hash

def ancestorsOf (g : CandidateGraph) (id : Fin g.size) : List (Fin g.size) :=
  g.ancestors.get id

def descendantsOf (g : CandidateGraph) (id : Fin g.size) : List (Fin g.size) :=
  g.descendants.get id

def ids (g : CandidateGraph) : List (Fin g.size) :=
  List.finRange g.size

/-- The number of the candidate with a hash. -/
def idOf? (g : CandidateGraph) (h : Hash256) : Option (Fin g.size) :=
  g.txs.findFinIdx? fun tx => tx.hash = h

/-- The package of a candidate with all its ancestors. -/
def fullPackage (g : CandidateGraph) (id : Fin g.size) : Package :=
  (g.ancestorsOf id).foldl (fun p a => p.add (g.tx a)) (.single (g.tx id))

/-- Ancestors come before their descendants in the order of this key. -/
def depthKey (g : CandidateGraph) (id : Fin g.size) : Nat × Hash256 :=
  ((g.ancestorsOf id).length, g.hash id)

/-- Whether a candidate has fewer ancestors than another, or as many and not the higher hash. -/
def depthLe (g : CandidateGraph) (a b : Fin g.size) : Bool :=
  let x := g.depthKey a
  let y := g.depthKey b
  ((compare x.1 y.1).then (compare x.2 y.2)).isLE

/-! ## Consistency -/

/-- An input that spends a candidate names one of the ancestors. -/
def inputFault? (g : CandidateGraph) (id : Fin g.size) (input : TxInput) : Option PoolFault :=
  match g.idOf? input.prevout.hash with
  | none => none
  | some parent =>
      if (g.ancestorsOf id).contains parent then none
      else some (.unlistedParent (g.hash id) input.prevout.hash)

/-- An ancestor does not depend on its descendant, lists it as a descendant,
and shares its own ancestors with it. -/
def ancestorFault? (g : CandidateGraph) (id ancestor : Fin g.size) : Option PoolFault :=
  if (g.ancestorsOf ancestor).contains id then
    some (.mutualAncestors (g.hash id) (g.hash ancestor))
  else if !(g.descendantsOf ancestor).contains id then
    some (.unlistedDescendant (g.hash id) (g.hash ancestor))
  else if (g.ancestorsOf ancestor).any fun a => !(g.ancestorsOf id).contains a then
    some (.openAncestors (g.hash id))
  else none

def descendantFault? (g : CandidateGraph) (id descendant : Fin g.size) : Option PoolFault :=
  if (g.ancestorsOf descendant).contains id then none
  else some (.unlistedAncestor (g.hash id) (g.hash descendant))

/-- The first fault of one candidate: of its inputs, its ancestors, its descendants. -/
def entryFault? (g : CandidateGraph) (id : Fin g.size) : Option PoolFault :=
  ((g.tx id).inputs.findSome? (g.inputFault? id)).or
    (((g.ancestorsOf id).findSome? (g.ancestorFault? id)).or
      ((g.descendantsOf id).findSome? (g.descendantFault? id)))

def fault? (g : CandidateGraph) : Option PoolFault :=
  g.ids.findSome? g.entryFault?

/-! ## From a view -/

/-- The candidates of a view in the order of hashes. -/
def sorted (view : PoolView) : List Candidate :=
  view.candidates.mergeSort fun a b => Hash256.le a.hash b.hash

/-- The first candidate without weight or with the hash of its predecessor. -/
def candidateError? : (previous : Option Hash256) → List Candidate → Option Error
  | _, [] => none
  | previous, tx :: rest =>
      if tx.weight = 0 then some (.inconsistentPool (.zeroWeight tx.hash))
      else if previous = some tx.hash then some (.duplicate tx.hash)
      else candidateError? (some tx.hash) rest

/-- The first hash of a relation that is not one of another candidate. -/
def relationFault? (known : List Hash256) (h : Hash256) :
    (related : Option (List Hash256)) → Option PoolFault
  | none => some (.noRelations h)
  | some related => related.findSome? fun r =>
      if r = h then some (.selfRelated h)
      else if known.contains r then none
      else some (.unknownRelative h r)

/-- The first fault of the relations of a view, ancestors before descendants. -/
def relationsFault? (view : PoolView) (txs : List Candidate) : Option PoolFault :=
  let known := txs.map (·.hash)
  txs.findSome? fun tx =>
    (relationFault? known tx.hash (view.ancestors? tx.hash)).or
      (relationFault? known tx.hash (view.descendants? tx.hash))

/-- The numbers of those candidates whose hashes are listed. -/
def numbersOf {n : Nat} (txs : Vector Candidate n) (related : List Hash256) : List (Fin n) :=
  if related.isEmpty then []
  else (List.finRange n).filter fun id => related.contains (txs.get id).hash

/-- The graph of the candidates in the given order, with the relations of a view. -/
def build (view : PoolView) (txs : List Candidate) : CandidateGraph :=
  let nodes : Vector Candidate txs.length := ⟨txs.toArray, List.size_toArray⟩
  { size := txs.length
    txs := nodes
    ancestors := nodes.map fun tx => numbersOf nodes ((view.ancestors? tx.hash).getD [])
    descendants := nodes.map fun tx => numbersOf nodes ((view.descendants? tx.hash).getD []) }

/-- The graph of a view, or the first way in which the view contradicts itself. -/
def ofView (view : PoolView) : Except Error CandidateGraph :=
  let txs := sorted view
  match candidateError? none txs with
  | some e => .error e
  | none =>
      match relationsFault? view txs with
      | some fault => .error (.inconsistentPool fault)
      | none =>
          let g := build view txs
          match g.fault? with
          | some fault => .error (.inconsistentPool fault)
          | none => .ok g

end CandidateGraph

end BlockProduction

import BlockProduction.Error
import BlockProduction.Package
import BlockProduction.Pool.View
import BlockProduction.Sorting

/-!
# Pool snapshots

A snapshot derives the relations of a list of candidates from their inputs: a
candidate depends on every other candidate whose output it spends, and on
everything that one depends on.  Candidates are presented by the fee rate of
the package with all ancestors, the highest first.
-/

namespace BlockProduction

/-- Candidates with their relations.  The tables have one row for each
candidate, in the order of hashes. -/
structure Snapshot where
  /-- The candidates in the order of presentation. -/
  candidates : List Candidate
  ancestors : List (Hash256 × List Hash256)
  descendants : List (Hash256 × List Hash256)
  deriving DecidableEq, Inhabited

namespace Snapshot

/-- The first candidate whose hash an earlier one has. -/
def repeated? : (seen : List Hash256) → List Candidate → Option Hash256
  | _, [] => none
  | seen, tx :: rest =>
      if seen.contains tx.hash then some tx.hash else repeated? (tx.hash :: seen) rest

def sortedHashes (txs : List Candidate) : List Hash256 :=
  (txs.map (·.hash)).mergeSort Hash256.le

/-- The other candidates whose outputs the candidate with a hash spends, in order. -/
def parents (txs : List Candidate) (hashes : List Hash256) (h : Hash256) : List Hash256 :=
  match txs.find? fun tx => tx.hash = h with
  | none => []
  | some tx =>
      if tx.inputs.isEmpty then []
      else hashes.filter fun p => p ≠ h && tx.spendsFrom p

/-- Ancestors of the candidates that are closed already. -/
abbrev Closed := List (Hash256 × List Hash256)

/-- Close a candidate: close its parents, then collect them and their ancestors.
`path` holds the candidates that are being closed; meeting one of them again is
a cycle, and it is named.  A path never repeats a candidate, which bounds `fuel`. -/
def close (parentsOf : Hash256 → List Hash256) (hashes : List Hash256) :
    (fuel : Nat) → (path : List Hash256) → Closed → Hash256 → Except Hash256 Closed
  | 0, _, closed, _ => .ok closed
  | fuel + 1, path, closed, h =>
      if (closed.lookup h).isSome then .ok closed
      else if path.contains h then .error h
      else do
        let ps := parentsOf h
        let closed ← ps.foldlM (close parentsOf hashes fuel (h :: path)) closed
        let above := ps.flatMap fun p => p :: (closed.lookup p).getD []
        return (h, if above.isEmpty then [] else hashes.filter above.contains) :: closed

def closeAll (txs : List Candidate) (hashes : List Hash256) : Except Hash256 Closed :=
  hashes.foldlM (close (parents txs hashes) hashes (hashes.length + 1) []) []

/-- The package of a candidate with all its ancestors. -/
def fullPackage (txs : List Candidate) (ancestors : Closed) (tx : Candidate) : Package :=
  ((ancestors.lookup tx.hash).getD []).foldl
    (fun p h => match txs.find? fun other => other.hash = h with
      | some other => p.add other
      | none => p)
    (.single tx)

/-- The order of presentation: the higher fee rate first, then the lower hash.  A package without
fee and weight is at the same fee rate as all others, so that this is no order where one stands. -/
def precedes (a b : Candidate × Package) : Bool :=
  ((b.2.compareRate a.2).then (compare a.1.hash b.1.hash)).isLE

/-- The snapshot of a list of candidates; two candidates of one hash and
candidates that depend on each other are refused.  There is no result if the sort
gives up. -/
def ofCandidates (sorter : Sorter (Candidate × Package)) (txs : List Candidate) :
    Option (Except Error Snapshot) :=
  match repeated? [] txs with
  | some h => some (.error (.duplicate h))
  | none =>
      let hashes := sortedHashes txs
      match closeAll txs hashes with
      | .error h => some (.error (.inconsistentPool (.cycle h)))
      | .ok closed =>
          let ancestors := hashes.map fun h => (h, (closed.lookup h).getD [])
          let descendants := hashes.map fun h =>
            (h, (ancestors.filter fun row => row.2.contains h).map (·.1))
          let packages := txs.map fun tx => (tx, fullPackage txs ancestors tx)
          (sorter.sort? precedes packages).map fun sorted =>
            .ok { candidates := sorted.map (·.1), ancestors, descendants }

def get? (s : Snapshot) (h : Hash256) : Option Candidate :=
  s.candidates.find? fun tx => tx.hash = h

def view (s : Snapshot) : PoolView :=
  { candidates := s.candidates
    ancestors? := fun h => s.ancestors.lookup h
    descendants? := fun h => s.descendants.lookup h }

end Snapshot

end BlockProduction

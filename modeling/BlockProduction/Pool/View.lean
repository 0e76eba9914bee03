import BlockProduction.Transaction

/-!
# Pool views

What selection sees of the pool of pending transactions: the candidates and,
for each, the hashes of those that it depends on and of those that depend on it.
-/

namespace BlockProduction

/-- A fixed view of the pool. -/
structure PoolView where
  /-- The candidates in the order in which the pool presents them. -/
  candidates : List Candidate
  /-- Everything that a candidate depends on, itself excluded; nothing for an unknown hash. -/
  ancestors? : Hash256 → Option (List Hash256)
  /-- Everything that depends on a candidate, itself excluded; nothing for an unknown hash. -/
  descendants? : Hash256 → Option (List Hash256)

namespace PoolView

def empty : PoolView :=
  ⟨[], fun _ => none, fun _ => none⟩

instance : Inhabited PoolView := ⟨empty⟩

/-- A view with tables of relations; the last row of a hash counts. -/
def ofTables (candidates : List Candidate)
    (ancestors descendants : List (Hash256 × List Hash256)) : PoolView :=
  { candidates
    ancestors? := fun h => ancestors.reverse.lookup h
    descendants? := fun h => descendants.reverse.lookup h }

end PoolView

end BlockProduction

/-!
# Cancel flags

Flags are raised and reset in cells that several flags may share.  A flag that
is linked from another has a cell of its own and also counts as raised while the
cell of the other is raised.
-/

namespace BlockProduction

/-- A cancel flag: its own cell, and the cell of the flag that it was linked from. -/
structure CancelFlag where
  own : Nat
  origin? : Option Nat
  deriving DecidableEq, Inhabited

structure FlagStore where
  cells : List Bool
  deriving DecidableEq, Inhabited

namespace FlagStore

def empty : FlagStore :=
  ⟨[]⟩

/-- A new flag, not raised. -/
def fresh (store : FlagStore) : CancelFlag × FlagStore :=
  (⟨store.cells.length, none⟩, ⟨store.cells ++ [false]⟩)

/-- A new flag that also counts as raised while the cell of the given flag is. -/
def linked (store : FlagStore) (flag : CancelFlag) : CancelFlag × FlagStore :=
  (⟨store.cells.length, some flag.own⟩, ⟨store.cells ++ [false]⟩)

def raise (store : FlagStore) (flag : CancelFlag) : FlagStore :=
  ⟨store.cells.set flag.own true⟩

/-- Lower the own cell of a flag. -/
def reset (store : FlagStore) (flag : CancelFlag) : FlagStore :=
  ⟨store.cells.set flag.own false⟩

def cell (store : FlagStore) (i : Nat) : Bool :=
  store.cells.getD i false

/-- Whether a flag counts as raised. -/
def isRaised (store : FlagStore) (flag : CancelFlag) : Bool :=
  store.cell flag.own || flag.origin?.any store.cell

end FlagStore

end BlockProduction

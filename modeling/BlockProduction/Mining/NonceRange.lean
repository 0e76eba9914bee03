import BlockProduction.Word

/-!
# Nonce ranges

A range of nonces includes both its ends.  It is split into neighbouring parts
of nearly equal width, one for each worker.
-/

namespace BlockProduction

/-- The nonces from `start` to `last`, both included. -/
structure NonceRange where
  start : Word256
  last : Word256
  deriving DecidableEq, Inhabited

namespace NonceRange

def full : NonceRange :=
  ⟨0, BitVec.allOnes 256⟩

def isEmpty (range : NonceRange) : Bool :=
  range.last.toNat < range.start.toNat

/-- The number of steps from the first nonce to the last. -/
def width (range : NonceRange) : Nat :=
  range.last.toNat - range.start.toNat

/-- The number of parts: as many as asked for, but at least one, and not more
than the width unless that is zero. -/
def partCount (range : NonceRange) (parts : Nat) : Nat :=
  let requested := max parts 1
  if range.width < requested then max range.width 1 else requested

/-- Split a range into at most `parts` neighbouring ranges.  All but the last
have the same width. -/
def split (range : NonceRange) (parts : Nat) : List NonceRange :=
  if range.isEmpty then []
  else
    let count := range.partCount parts
    let step := range.width / count
    (List.range count).map fun i =>
      { start := BitVec.ofNat 256 (range.start.toNat + step * i)
        last :=
          if i + 1 = count then range.last
          else BitVec.ofNat 256 (range.start.toNat + step * (i + 1) - 1) }

end NonceRange

end BlockProduction

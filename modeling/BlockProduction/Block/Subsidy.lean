import BlockProduction.Word

/-!
# Block subsidy

The subsidy of a block halves at every interval of heights, until nothing is left.
-/

namespace BlockProduction

/-- The subsidy before the first halving. -/
def initialSubsidy : Nat := 50 * 100000000

/-- The subsidy of the block at a height.  Without an interval there is none,
and after 64 halvings none is left. -/
def blockSubsidy (height halvingInterval : UInt32) : UInt64 :=
  if halvingInterval = 0 then 0
  else
    let halvings := height.toNat / halvingInterval.toNat
    if 64 ≤ halvings then 0 else UInt64.ofNat (initialSubsidy >>> halvings)

end BlockProduction

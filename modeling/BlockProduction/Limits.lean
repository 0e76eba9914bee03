import BlockProduction.Package

/-!
# Block limits

A package is checked as a whole against the least fee rate and against the
weight and signature-operation cost that are left.
-/

namespace BlockProduction

/-- Running sums of a block under construction, the coinbase reservation included. -/
structure Usage where
  weight : UInt64
  sigopCost : UInt64
  fees : UInt64
  deriving DecidableEq, Inhabited

/-- The limits of a block and the least fee rate of its packages. -/
structure Limits where
  maxWeight : UInt64
  maxSigopCost : UInt64
  minFeeRate : FeeRate
  deriving DecidableEq, Inhabited

inductive Verdict where
  | fits
  /-- The package pays less than `required`. -/
  | underpays (required : UInt64)
  /-- With the package the block would have these sums, too much of one. -/
  | overflows (weight sigopCost : UInt64)
  deriving DecidableEq

namespace Limits

/-- The fee that a package fails to pay, if it pays too little. -/
def shortfall? (limits : Limits) (p : Package) : Option UInt64 :=
  let required := limits.minFeeRate.feeFor p.weight
  if p.fee < required then some required else none

/-- The sums of weight and cost with a package, if one is over its limit. -/
def excess? (limits : Limits) (usage : Usage) (p : Package) : Option (UInt64 × UInt64) :=
  let weight := satAdd usage.weight p.weight
  let sigopCost := satAdd usage.sigopCost p.sigopCost
  if limits.maxWeight < weight ∨ limits.maxSigopCost < sigopCost then
    some (weight, sigopCost)
  else none

/-- The fee rate first, then the limits. -/
def check (limits : Limits) (usage : Usage) (p : Package) : Verdict :=
  match limits.shortfall? p with
  | some required => .underpays required
  | none =>
      match limits.excess? usage p with
      | some (weight, sigopCost) => .overflows weight sigopCost
      | none => .fits

/-- Whether less than `margin` weight is left. -/
def nearlyFull (limits : Limits) (usage : Usage) (margin : UInt64) : Bool :=
  satSub limits.maxWeight margin < usage.weight

end Limits

namespace Usage

def commit (usage : Usage) (p : Package) : Usage :=
  { weight := satAdd usage.weight p.weight
    sigopCost := satAdd usage.sigopCost p.sigopCost
    fees := satAdd usage.fees p.fee }

end Usage

end BlockProduction

import BlockProduction.Word

/-!
# Fee rates

A fee rate is a fee for 1000 units of weight, rounded down.
-/

namespace BlockProduction

/-- A fee for 1000 units of weight. -/
structure FeeRate where
  perUnit : UInt64
  deriving DecidableEq, Inhabited

namespace FeeRate

/-- The weight that a rate is stated for. -/
def unitWeight : Nat := 1000

/-- The rate of a fee over a weight, rounded down; no weight has rate zero. -/
def ofFee (fee weight : UInt64) : FeeRate :=
  if weight = 0 then ⟨0⟩
  else ⟨clampWord (fee.toNat * unitWeight / weight.toNat)⟩

/-- The fee that a rate asks for a weight, rounded down, but never nothing for
some weight at some rate. -/
def feeFor (rate : FeeRate) (weight : UInt64) : UInt64 :=
  let fee := clampWord (rate.perUnit.toNat * weight.toNat / unitWeight)
  if fee = 0 ∧ weight ≠ 0 ∧ 0 < rate.perUnit then 1 else fee

end FeeRate

end BlockProduction

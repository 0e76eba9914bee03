import BlockProduction.Block.Template

/-!
# What a round reports

The block under construction, why the round ended, and every candidate that was
skipped with the reason.
-/

namespace BlockProduction

/-- Why a candidate is skipped for the rest of a round. -/
inductive SkipReason where
  /-- The package pays `fee` for `weight`, where `required` is asked. -/
  | feeRate (fee weight required : UInt64)
  /-- With the package the block would have these sums, too much of one. -/
  | limits (weight sigopCost : UInt64)
  | finality (failure : Finality.Failure)
  /-- Some input spends an output that is neither confirmed nor a candidate's. -/
  | missingInputs
  | ancestorSkipped (ancestor : Hash256)
  deriving DecidableEq

namespace SkipReason

def label : SkipReason → String
  | .feeRate .. => "fee_rate"
  | .limits .. => "budget"
  | .finality _ => "finality"
  | .missingInputs => "missing_inputs"
  | .ancestorSkipped _ => "ancestor_rejected"

def toError (reason : SkipReason) (tx : Hash256) (limits : Limits) : Error :=
  match reason with
  | .feeRate fee weight required => .belowFeeRate fee weight required
  | .limits weight sigopCost =>
      .overBudget weight limits.maxWeight sigopCost limits.maxSigopCost
  | .finality failure => .notFinal tx (.rule failure)
  | .missingInputs => .missingInputs tx
  | .ancestorSkipped ancestor => .notFinal tx (.ancestorSkipped ancestor)

end SkipReason

/-- A verdict that is not in favour of a package, as an error. -/
def Verdict.error? (verdict : Verdict) (limits : Limits) (p : Package) : Option Error :=
  match verdict with
  | .fits => none
  | .underpays required => some (.belowFeeRate p.fee p.weight required)
  | .overflows weight sigopCost =>
      some (.overBudget weight limits.maxWeight sigopCost limits.maxSigopCost)

structure Skip where
  hash : Hash256
  reason : SkipReason
  deriving DecidableEq

inductive StopReason where
  /-- Every candidate was included or skipped. -/
  | poolExhausted
  /-- As many candidates were considered as the selector allows. -/
  | considerationBudgetExhausted
  /-- Too many failures in a row with hardly any room left. -/
  | blockFull
  deriving DecidableEq, Inhabited

/-- What a round included, for the owner of the pool. -/
structure Inclusion where
  tipHash : Hash256
  targetHeight : UInt32
  /-- The hashes of the transactions in block order. -/
  included : List Hash256
  deriving DecidableEq, Inhabited

structure SelectionReport where
  draft : Draft
  stop : StopReason
  /-- The skipped candidates in the order in which they were skipped. -/
  skipped : List Skip
  /-- The number of candidates that were taken from the queue. -/
  considered : Nat

namespace SelectionReport

def inclusion (report : SelectionReport) : Inclusion :=
  { tipHash := report.draft.context.tip.hash
    targetHeight := report.draft.context.targetHeight
    included := report.draft.hashes }

end SelectionReport

end BlockProduction

import BlockProduction.Finality

/-!
# Errors

Every way in which building, checking or mining a block can fail, as a cause
with its data.  The wording is in `message` alone.  Causes that come from
outside, from a solver, a submitter or a chain index, carry their own words.
-/

namespace BlockProduction

/-- Why a transaction may not stand in the block. -/
inductive FinalityCause where
  | rule (failure : Finality.Failure)
  | ancestorSkipped (ancestor : Hash256)
  | stated (words : String)
  deriving DecidableEq

inductive PoolFault where
  | zeroWeight (tx : Hash256)
  | noRelations (tx : Hash256)
  | selfRelated (tx : Hash256)
  | unknownRelative (tx relative : Hash256)
  | unlistedParent (tx parent : Hash256)
  | mutualAncestors (tx ancestor : Hash256)
  | unlistedDescendant (tx ancestor : Hash256)
  | openAncestors (tx : Hash256)
  | unlistedAncestor (tx descendant : Hash256)
  | cycle (tx : Hash256)
  | stated (words : String)
  deriving DecidableEq

inductive ConfigFault where
  | malformed
  | weightOverMaximum (weight maximum : UInt64)
  | reservationTooHeavy (reserved maximum : UInt64)
  | sigopsOutOfRange (budget reserved maximum : UInt64)
  | nothingConsidered
  | noWorkers
  | zeroPowLimit
  | zeroHalvingInterval
  | stated (words : String)
  deriving DecidableEq

inductive InternalFault where
  | coinbaseOverflow (subsidy fees : UInt64)
  | feeSumOverflow
  | coinbaseValueOverflow
  | merkleMismatch (header computed : Hash256)
  | searchRunning
  | workerCrashed
  | stated (words : String)
  deriving DecidableEq

inductive Error where
  | overBudget (weight maxWeight sigopCost maxSigopCost : UInt64)
  | belowFeeRate (fee weight required : UInt64)
  | notFinal (tx : Hash256) (cause : FinalityCause)
  | missingInputs (tx : Hash256)
  | searchCancelled (noncesTried : Nat)
  | noncesExhausted (noncesTried : Nat)
  | solver (words : String)
  | inconsistentPool (fault : PoolFault)
  | invalidConfig (fault : ConfigFault)
  | misordered (child ancestor : Hash256)
  | duplicate (tx : Hash256)
  | coinbaseMismatch (expected actual : UInt64)
  | chain (words : String)
  | submission (words : String)
  | internal (fault : InternalFault)
  deriving DecidableEq

namespace FinalityCause

def message : FinalityCause → String
  | .rule failure => failure.message
  | .ancestorSkipped ancestor => "ancestor " ++ ancestor.text ++ " rejected"
  | .stated words => words

end FinalityCause

namespace PoolFault

def message : PoolFault → String
  | .zeroWeight tx => "candidate " ++ tx.text ++ " has zero weight"
  | .noRelations tx => "pool has no relations for " ++ tx.text
  | .selfRelated tx => "candidate " ++ tx.text ++ " is related to itself"
  | .unknownRelative tx relative => tx.text ++ " references unknown candidate " ++ relative.text
  | .unlistedParent tx parent =>
      tx.text ++ " spends pool transaction " ++ parent.text ++ " missing from its ancestors"
  | .mutualAncestors tx ancestor =>
      "dependency cycle between " ++ tx.text ++ " and " ++ ancestor.text
  | .unlistedDescendant tx ancestor =>
      tx.text ++ " lists ancestor " ++ ancestor.text ++ " which does not list it as descendant"
  | .openAncestors tx => "ancestor set of " ++ tx.text ++ " is not transitively closed"
  | .unlistedAncestor tx descendant =>
      tx.text ++ " lists descendant " ++ descendant.text ++ " which does not list it as ancestor"
  | .cycle tx => "dependency cycle through " ++ tx.text
  | .stated words => words

end PoolFault

namespace ConfigFault

def message : ConfigFault → String
  | .malformed => "malformed config"
  | .weightOverMaximum weight maximum =>
      "max_block_weight " ++ toString weight.toNat
        ++ " exceeds consensus maximum " ++ toString maximum.toNat
  | .reservationTooHeavy reserved maximum =>
      "coinbase reservation " ++ toString reserved.toNat
        ++ " leaves no room under max_block_weight " ++ toString maximum.toNat
  | .sigopsOutOfRange budget reserved maximum =>
      "sigop budget " ++ toString budget.toNat ++ " (reserved " ++ toString reserved.toNat
        ++ ") outside 1..=" ++ toString maximum.toNat
  | .nothingConsidered => "max_candidates_considered must be positive"
  | .noWorkers => "mining.workers must be positive"
  | .zeroPowLimit => "pow_limit must be non-zero"
  | .zeroHalvingInterval => "halving_interval must be positive"
  | .stated words => words

end ConfigFault

namespace InternalFault

def message : InternalFault → String
  | .coinbaseOverflow subsidy fees =>
      "coinbase value overflow: subsidy " ++ toString subsidy.toNat
        ++ " + fees " ++ toString fees.toNat
  | .feeSumOverflow => "fee sum overflow"
  | .coinbaseValueOverflow => "coinbase value overflow"
  | .merkleMismatch header computed =>
      "merkle root mismatch: header " ++ header.text ++ ", computed " ++ computed.text
  | .searchRunning => "a proof-of-work search is already running"
  | .workerCrashed => "mining worker panicked"
  | .stated words => words

end InternalFault

namespace Error

def message : Error → String
  | .overBudget weight maxWeight sigopCost maxSigopCost =>
      "Resource budget exceeded: weight " ++ toString weight.toNat
        ++ "/" ++ toString maxWeight.toNat ++ ", sigop cost " ++ toString sigopCost.toNat
        ++ "/" ++ toString maxSigopCost.toNat
  | .belowFeeRate fee weight required =>
      "Fee rate below minimum: package pays " ++ toString fee.toNat ++ ", minimum for "
        ++ toString weight.toNat ++ " weight is " ++ toString required.toNat
  | .notFinal tx cause => "Finality violation for " ++ tx.text ++ ": " ++ cause.message
  | .missingInputs tx => "Missing inputs for " ++ tx.text
  | .searchCancelled noncesTried =>
      "Puzzle solve cancelled after " ++ toString noncesTried ++ " nonces"
  | .noncesExhausted noncesTried =>
      "Nonce space exhausted after " ++ toString noncesTried ++ " nonces"
  | .solver words => "Solver error: " ++ words
  | .inconsistentPool fault => "Inconsistent pool snapshot: " ++ fault.message
  | .invalidConfig fault => "Invalid configuration: " ++ fault.message
  | .misordered child ancestor =>
      "Ordering violation: " ++ child.text ++ " precedes its ancestor " ++ ancestor.text
  | .duplicate tx => "Duplicate transaction " ++ tx.text
  | .coinbaseMismatch expected actual =>
      "Coinbase value mismatch: expected " ++ toString expected.toNat
        ++ ", got " ++ toString actual.toNat
  | .chain words => "Chain context error: " ++ words
  | .submission words => "Submission error: " ++ words
  | .internal fault => "Internal error: " ++ fault.message

/-- Whether selection or mining goes on after the error without a change from outside. -/
def isRecoverable : Error → Bool
  | .overBudget .. | .belowFeeRate .. | .notFinal .. | .missingInputs .. | .searchCancelled .. =>
      true
  | _ => false

/-- Whether a new template or another configuration is needed. -/
def isCritical : Error → Bool
  | .noncesExhausted .. | .invalidConfig .. | .inconsistentPool .. | .misordered ..
  | .duplicate .. | .coinbaseMismatch .. | .internal .. => true
  | _ => false

/-- Steps that follow one another succeed if each of them does. -/
theorem bind_eq_ok_iff {α β : Type} {first : Except Error α} {next : α → Except Error β}
    {result : β} : first >>= next = .ok result ↔ ∃ a, first = .ok a ∧ next a = .ok result := by
  cases first with
  | error e => exact ⟨nofun, fun ⟨_, h, _⟩ => nomatch h⟩
  | ok a => exact ⟨fun h => ⟨a, rfl, h⟩, fun ⟨_, rfl, h⟩ => h⟩

end Error

end BlockProduction

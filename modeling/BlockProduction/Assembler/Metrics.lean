import BlockProduction.Selection.Report

/-!
# Metrics

Counters over the life of a service.  They are 64-bit words and start again at
zero when they run over.
-/

namespace BlockProduction

structure Metrics where
  roundsCompleted : UInt64
  transactionsIncluded : UInt64
  totalFees : UInt64
  rejectedFeeRate : UInt64
  rejectedBudget : UInt64
  rejectedFinality : UInt64
  rejectedMissingInputs : UInt64
  rejectedDescendants : UInt64
  noncesTried : UInt64
  solutionsRejected : UInt64
  blocksMined : UInt64
  miningCancelled : UInt64
  /-- The time spent on selection, in microseconds. -/
  selectionMicros : UInt64
  /-- The time spent on mining, in milliseconds. -/
  miningMillis : UInt64
  deriving DecidableEq

namespace Metrics

def zero : Metrics :=
  ⟨0, 0, 0, 0, 0, 0, 0, 0, 0, 0, 0, 0, 0, 0⟩

instance : Inhabited Metrics := ⟨zero⟩

def recordRound (m : Metrics) (txCount : Nat) (fees micros : UInt64) : Metrics :=
  { m with
    roundsCompleted := m.roundsCompleted + 1
    transactionsIncluded := m.transactionsIncluded + UInt64.ofNat txCount
    totalFees := m.totalFees + fees
    selectionMicros := m.selectionMicros + micros }

def recordSkip (m : Metrics) : SkipReason → Metrics
  | .feeRate .. => { m with rejectedFeeRate := m.rejectedFeeRate + 1 }
  | .limits .. => { m with rejectedBudget := m.rejectedBudget + 1 }
  | .finality _ => { m with rejectedFinality := m.rejectedFinality + 1 }
  | .missingInputs => { m with rejectedMissingInputs := m.rejectedMissingInputs + 1 }
  | .ancestorSkipped _ => { m with rejectedDescendants := m.rejectedDescendants + 1 }

def recordMining (m : Metrics) (nonces rejected : Nat) (millis : UInt64) : Metrics :=
  { m with
    noncesTried := m.noncesTried + UInt64.ofNat nonces
    solutionsRejected := m.solutionsRejected + UInt64.ofNat rejected
    miningMillis := m.miningMillis + millis }

def recordBlock (m : Metrics) : Metrics :=
  { m with blocksMined := m.blocksMined + 1 }

def recordCancelled (m : Metrics) : Metrics :=
  { m with miningCancelled := m.miningCancelled + 1 }

def totalRejections (m : Metrics) : UInt64 :=
  m.rejectedFeeRate + m.rejectedBudget + m.rejectedFinality + m.rejectedMissingInputs
    + m.rejectedDescendants

/-- A counter for each finished round, zero before the first. -/
def perRound (m : Metrics) (counter : UInt64) : Float :=
  if m.roundsCompleted = 0 then 0.0 else counter.toFloat / m.roundsCompleted.toFloat

def averageTransactions (m : Metrics) : Float :=
  m.perRound m.transactionsIncluded

def averageSelectionMicros (m : Metrics) : Float :=
  m.perRound m.selectionMicros

end Metrics

end BlockProduction

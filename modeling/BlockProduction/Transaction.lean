import BlockProduction.Hash
import BlockProduction.FeeRate

/-!
# Pending transactions

A candidate is a pending transaction with the figures that selection needs:
its fee, weight, signature-operation cost, inputs and lock time.
-/

namespace BlockProduction

structure Outpoint where
  hash : Hash256
  index : UInt32
  deriving DecidableEq, Inhabited

/-- The sequence of an input that takes no part in any lock. -/
def finalSequence : UInt32 := 0xffffffff

/-- An input: the output that it spends and its sequence. -/
structure TxInput where
  prevout : Outpoint
  sequence : UInt32
  deriving DecidableEq, Inhabited

structure Candidate where
  hash : Hash256
  version : Int32
  fee : UInt64
  weight : UInt64
  sigopCost : UInt64
  inputs : List TxInput
  /-- A height below the threshold of lock times, a time above it. -/
  lockTime : UInt32
  /-- Whether some input spends a block reward. -/
  spendsCoinbase : Bool
  deriving DecidableEq, Inhabited

namespace Candidate

def feeRate (tx : Candidate) : FeeRate :=
  FeeRate.ofFee tx.fee tx.weight

/-- Whether some input spends an output of the given transaction. -/
def spendsFrom (tx : Candidate) (parent : Hash256) : Bool :=
  tx.inputs.any fun input => input.prevout.hash = parent

end Candidate

end BlockProduction

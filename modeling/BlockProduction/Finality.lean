import BlockProduction.Chain

/-!
# Finality

Whether a transaction may stand in a block: its lock time has passed, the
relative locks of its inputs have run out, and the block rewards that it spends
are old enough.  The rules are checked in this order and the first one that
fails is named.
-/

namespace BlockProduction.Finality

/-- Lock times below are heights, all others times. -/
def lockTimeThreshold : UInt32 := 500000000

/-- The bit of a sequence that switches its relative lock off. -/
def disableBit : UInt32 := 0x80000000

/-- The bit of a sequence that makes its relative lock one of time. -/
def timeBit : UInt32 := 0x00400000

/-- The bits of a sequence that hold the length of its relative lock. -/
def lengthMask : UInt32 := 0x0000ffff

/-- The unit of relative locks of time, in seconds. -/
def timeUnit : Int64 := 512

/-- The number of blocks for which a block reward cannot be spent. -/
def coinbaseMaturity : UInt32 := 100

/-- The least version of a transaction whose relative locks count. -/
def minLockVersion : Int32 := 2

/-- The last height and the last time at which a transaction is still locked;
minus one where nothing locks it. -/
structure LockPoints where
  minHeight : Int64
  minTime : Int64
  deriving DecidableEq

namespace LockPoints

def unlocked : LockPoints :=
  ⟨-1, -1⟩

def max (p q : LockPoints) : LockPoints :=
  ⟨Max.max p.minHeight q.minHeight, Max.max p.minTime q.minTime⟩

/-- Whether a block at a height, above a tip with a median time past, is beyond the locks. -/
def passed (p : LockPoints) (height : UInt32) (tipTime : Int64) : Bool :=
  p.minHeight < .ofNat height.toNat && p.minTime < tipTime

end LockPoints

inductive Failure where
  | lockTime (value : UInt32)
  | sequenceLock (points : LockPoints)
  | immatureCoinbase (confirmedAt : UInt32)
  deriving DecidableEq

namespace Failure

def message : Failure → String
  | .lockTime value => "non-final lock-time " ++ toString value.toNat
  | .sequenceLock points =>
      "sequence lock until height " ++ toString points.minHeight.toInt
        ++ " / time " ++ toString points.minTime.toInt
  | .immatureCoinbase confirmedAt =>
      "immature coinbase spend (confirmed at " ++ toString confirmedAt.toNat ++ ")"

end Failure

/-- What the rules need to know about the block and the spent outputs. -/
structure InputContext where
  targetHeight : UInt32
  tipTime : Int64
  /-- The confirmation of each spent output, in the order of the inputs. -/
  confirmations : List Confirmation
  deriving Inhabited

/-- The lock time is zero, or lies before the height or the cutoff, or no input
takes part in locks. -/
def isFinal (tx : Candidate) (height : UInt32) (cutoff : Int64) : Bool :=
  let clock : Int64 := if tx.lockTime < lockTimeThreshold then .ofNat height.toNat else cutoff
  tx.lockTime == 0 || .ofNat tx.lockTime.toNat < clock
    || tx.inputs.all fun input => input.sequence == finalSequence

/-- The lock of one input.  A time that does not fit into its word runs over. -/
def inputLock (input : TxInput) (confirmation : Confirmation) : LockPoints :=
  let length : Int64 := .ofNat (input.sequence &&& lengthMask).toNat
  if input.sequence &&& disableBit != 0 then .unlocked
  else if input.sequence &&& timeBit != 0 then
    ⟨-1, confirmation.medianTimePast + length * timeUnit - 1⟩
  else ⟨.ofNat confirmation.height.toNat + length - 1, -1⟩

/-- The latest of the locks of all inputs. -/
def sequenceLocks (tx : Candidate) (flags : LockFlags) (confirmations : List Confirmation) :
    LockPoints :=
  if !flags.verifySequence || tx.version < minLockVersion then .unlocked
  else (tx.inputs.zip confirmations).foldl
    (fun points pair => points.max (inputLock pair.1 pair.2)) .unlocked

/-- Whether the relative locks have run out. -/
def locksPassed (tx : Candidate) (flags : LockFlags) (context : InputContext) : Bool :=
  (sequenceLocks tx flags context.confirmations).passed context.targetHeight context.tipTime

/-- Whether a block reward confirmed at a height may be spent at another. -/
def isMature (confirmedAt height : UInt32) : Bool :=
  coinbaseMaturity.toNat ≤ height.toNat - confirmedAt.toNat

/-- The first spent block reward that is too young, if the transaction spends any. -/
def immature? (tx : Candidate) (context : InputContext) : Option Failure :=
  if !tx.spendsCoinbase then none
  else
    let young := context.confirmations.find? fun c =>
      c.isCoinbase && !isMature c.height context.targetHeight
    young.map fun c => .immatureCoinbase c.height

/-- The first rule that a transaction breaks, if it breaks any. -/
def failure? (tx : Candidate) (flags : LockFlags) (cutoff : Int64) (context : InputContext) :
    Option Failure :=
  if !isFinal tx context.targetHeight cutoff then some (.lockTime tx.lockTime)
  else
    let points := sequenceLocks tx flags context.confirmations
    if !points.passed context.targetHeight context.tipTime then some (.sequenceLock points)
    else immature? tx context

end BlockProduction.Finality

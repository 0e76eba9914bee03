import BlockProduction.Transaction

/-!
# The chain below the block

The tip that a block extends, the confirmations of the outputs that its
transactions spend, and a table of both.  Times are seconds in signed words of
64 bits.
-/

namespace BlockProduction

structure ChainTip where
  hash : Hash256
  height : UInt32
  /-- The median of the times of the last blocks. -/
  medianTimePast : Int64
  /-- The compact target that the next block has to meet. -/
  nextBits : UInt32
  deriving DecidableEq, Inhabited

structure Confirmation where
  height : UInt32
  /-- The median time past of the block before the confirming one. -/
  medianTimePast : Int64
  isCoinbase : Bool
  deriving DecidableEq, Inhabited

/-- Switches of the lock rules. -/
structure LockFlags where
  /-- Whether the sequences of inputs lock them. -/
  verifySequence : Bool
  /-- Whether lock times are compared with the median time past of the tip
  instead of the time of the block. -/
  medianTimePast : Bool
  deriving DecidableEq

/-- Both rules are on unless switched off. -/
instance : Inhabited LockFlags := ⟨⟨true, true⟩⟩

namespace ChainTip

def targetHeight (tip : ChainTip) : UInt32 :=
  if tip.height = 0xffffffff then tip.height else tip.height + 1

end ChainTip

/-- The tip together with the time of the block above it. -/
structure RoundContext where
  tip : ChainTip
  blockTime : Int64
  deriving DecidableEq, Inhabited

namespace RoundContext

def targetHeight (context : RoundContext) : UInt32 :=
  context.tip.targetHeight

/-- The time that lock times are compared with. -/
def cutoff (context : RoundContext) (flags : LockFlags) : Int64 :=
  if flags.medianTimePast then context.tip.medianTimePast else context.blockTime

end RoundContext

/-- What selection asks of the chain: the confirmation of an output that is
confirmed and unspent. -/
abbrev Confirmations := Outpoint → Option Confirmation

/-- A tip with a table of confirmed outputs and an answer for all others. -/
structure ChainTable where
  tip : ChainTip
  /-- The latest entry for an output counts. -/
  confirmed : List (Outpoint × Confirmation)
  fallback : Option Confirmation
  deriving Inhabited

namespace ChainTable

def ofTip (tip : ChainTip) : ChainTable :=
  ⟨tip, [], none⟩

/-- A table with one more output, or with a new confirmation of an old one. -/
def confirm (table : ChainTable) (outpoint : Outpoint) (confirmation : Confirmation) : ChainTable :=
  { table with confirmed := (outpoint, confirmation) :: table.confirmed }

def confirmation? (table : ChainTable) : Confirmations := fun outpoint =>
  (table.confirmed.lookup outpoint).or table.fallback

end ChainTable

end BlockProduction

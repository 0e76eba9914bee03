import BlockProduction.CompactSize
import BlockProduction.Hash.Sha256
import BlockProduction.Transaction

/-!
# Coinbase transactions

The transaction that pays the subsidy and the fees.  Its input script commits
to the height of the block and to an extra nonce.
-/

namespace BlockProduction

structure Coinbase where
  height : UInt32
  value : UInt64
  payoutScript : Bytes
  extraNonce : UInt32
  deriving DecidableEq, Inhabited

namespace Coinbase

/-- The bytes of a height without its leading zeros, but at least one byte. -/
def heightBytes (height : UInt32) : Bytes :=
  let n := height.toNat
  let width := if n < 0x100 then 1 else if n < 0x10000 then 2 else if n < 0x1000000 then 3 else 4
  leBytes width n

/-- The input script: the height and the extra nonce, each behind its length. -/
def inputScript (tx : Coinbase) : Bytes :=
  let height := heightBytes tx.height
  UInt8.ofNat height.length :: height ++ (4 :: leBytes 4 tx.extraNonce.toNat)

/-- The serialization: one input that spends nothing, one output. -/
def serialize (tx : Coinbase) : Bytes :=
  leBytes 4 1
    ++ CompactSize.encode 1
    ++ List.replicate 32 0 ++ leBytes 4 0xffffffff
    ++ CompactSize.counted tx.inputScript
    ++ leBytes 4 finalSequence.toNat
    ++ CompactSize.encode 1
    ++ leBytes 8 tx.value.toNat
    ++ CompactSize.counted tx.payoutScript
    ++ leBytes 4 0

def hash (tx : Coinbase) : Hash256 :=
  Sha256.hashTwice tx.serialize

end Coinbase

end BlockProduction

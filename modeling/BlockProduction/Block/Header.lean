import BlockProduction.CompactSize
import BlockProduction.Hash.Sha256

/-!
# Block headers

A header ends in a 256-bit nonce and a puzzle solution of any length; what
stands before them is the preimage that a search absorbs only once.
-/

namespace BlockProduction

structure Header where
  version : Int32
  prevHash : Hash256
  merkleRoot : Hash256
  reserved : Hash256
  time : UInt32
  /-- The compact target that the hash of the header has to meet. -/
  bits : UInt32
  nonce : Hash256
  solution : Bytes
  deriving DecidableEq, Inhabited

namespace Header

/-- The serialization without nonce and solution. -/
def preimage (header : Header) : Bytes :=
  leBytes 4 header.version.toUInt32.toNat
    ++ header.prevHash.bytes
    ++ header.merkleRoot.bytes
    ++ header.reserved.bytes
    ++ leBytes 4 header.time.toNat
    ++ leBytes 4 header.bits.toNat

theorem length_preimage (header : Header) : header.preimage.length = 108 := by
  simp [preimage]

def serialize (header : Header) : Bytes :=
  header.preimage ++ header.nonce.bytes ++ CompactSize.counted header.solution

def hash (header : Header) : Hash256 :=
  Sha256.hashTwice header.serialize

end Header

end BlockProduction

import BlockProduction.Block.Header

/-!
# Hash states of nonces

The preimage of a header is absorbed once; each nonce extends a copy of that
state, and a solution extends a copy of the state of its nonce.
-/

namespace BlockProduction

/-- The hash state behind the preimage of a header. -/
def Header.midstate (header : Header) : Sha256.State :=
  Sha256.absorb Sha256.start header.preimage

/-- The hash state behind the preimage and a nonce. -/
structure NonceState where
  state : Sha256.State
  nonce : Word256
  deriving DecidableEq

namespace NonceState

def ofMidstate (midstate : Sha256.State) (nonce : Word256) : NonceState :=
  ⟨Sha256.absorb midstate (Hash256.ofWord nonce).bytes, nonce⟩

def nonceBytes (s : NonceState) : Hash256 :=
  Hash256.ofWord s.nonce

/-- The single digest of preimage and nonce. -/
def digest (s : NonceState) : Hash256 :=
  Sha256.finish s.state

/-- The hash of the header with the nonce and a solution. -/
def headerHash (s : NonceState) (solution : Bytes) : Hash256 :=
  Sha256.finishTwice (Sha256.absorb s.state (CompactSize.counted solution))

/-- A state in words: its nonce in decimal digits. -/
def describe (s : NonceState) : String :=
  "PuzzleHashState \x7b nonce: " ++ toString s.nonce.toNat ++ ", .. \x7d"

end NonceState

end BlockProduction

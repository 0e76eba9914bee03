import BlockProduction.Hash

/-!
# SHA-256

The hash is computed by absorbing one byte at a time into a running state, so
that a common first part of several messages is absorbed only once.  Absorbing
a concatenation is absorbing its parts in turn.
-/

namespace BlockProduction.Sha256

structure Chain where
  a : UInt32
  b : UInt32
  c : UInt32
  d : UInt32
  e : UInt32
  f : UInt32
  g : UInt32
  h : UInt32
  deriving DecidableEq

def initialChain : Chain :=
  ⟨0x6a09e667, 0xbb67ae85, 0x3c6ef372, 0xa54ff53a, 0x510e527f, 0x9b05688c, 0x1f83d9ab, 0x5be0cd19⟩

/-- One constant for each of the 64 rounds. -/
def roundConstants : List UInt32 :=
  [0x428a2f98, 0x71374491, 0xb5c0fbcf, 0xe9b5dba5, 0x3956c25b, 0x59f111f1, 0x923f82a4, 0xab1c5ed5,
   0xd807aa98, 0x12835b01, 0x243185be, 0x550c7dc3, 0x72be5d74, 0x80deb1fe, 0x9bdc06a7, 0xc19bf174,
   0xe49b69c1, 0xefbe4786, 0x0fc19dc6, 0x240ca1cc, 0x2de92c6f, 0x4a7484aa, 0x5cb0a9dc, 0x76f988da,
   0x983e5152, 0xa831c66d, 0xb00327c8, 0xbf597fc7, 0xc6e00bf3, 0xd5a79147, 0x06ca6351, 0x14292967,
   0x27b70a85, 0x2e1b2138, 0x4d2c6dfc, 0x53380d13, 0x650a7354, 0x766a0abb, 0x81c2c92e, 0x92722c85,
   0xa2bfe8a1, 0xa81a664b, 0xc24b8b70, 0xc76c51a3, 0xd192e819, 0xd6990624, 0xf40e3585, 0x106aa070,
   0x19a4c116, 0x1e376c08, 0x2748774c, 0x34b0bcb5, 0x391c0cb3, 0x4ed8aa4a, 0x5b9cca4f, 0x682e6ff3,
   0x748f82ee, 0x78a5636f, 0x84c87814, 0x8cc70208, 0x90befffa, 0xa4506ceb, 0xbef9a3f7, 0xc67178f2]

/-- A word turned to the right; `n` is between 1 and 31. -/
@[inline] def rotateRight (x n : UInt32) : UInt32 :=
  (x >>> n) ||| (x <<< (32 - n))

/-- One round: the chain takes a message word and a round constant. -/
@[inline] def round (s : Chain) (w k : UInt32) : Chain :=
  let s1 := rotateRight s.e 6 ^^^ rotateRight s.e 11 ^^^ rotateRight s.e 25
  let choice := (s.e &&& s.f) ^^^ (~~~ s.e &&& s.g)
  let t1 := s.h + s1 + choice + k + w
  let s0 := rotateRight s.a 2 ^^^ rotateRight s.a 13 ^^^ rotateRight s.a 22
  let majority := (s.a &&& s.b) ^^^ (s.a &&& s.c) ^^^ (s.b &&& s.c)
  ⟨t1 + (s0 + majority), s.a, s.b, s.c, s.d + t1, s.e, s.f, s.g⟩

/-- The message word sixteen places after the first word of the window. -/
@[inline] def nextWord (w0 w1 w9 w14 : UInt32) : UInt32 :=
  let s0 := rotateRight w1 7 ^^^ rotateRight w1 18 ^^^ (w1 >>> 3)
  let s1 := rotateRight w14 17 ^^^ rotateRight w14 19 ^^^ (w14 >>> 10)
  w0 + s0 + w9 + s1

/-- Run the rounds with the given constants over a window of sixteen message words. -/
def rounds (s : Chain) : (window : List UInt32) → (constants : List UInt32) → Chain
  | [w0, w1, w2, w3, w4, w5, w6, w7, w8, w9, w10, w11, w12, w13, w14, w15], k :: constants =>
      rounds (round s w0 k)
        [w1, w2, w3, w4, w5, w6, w7, w8, w9, w10, w11, w12, w13, w14, w15, nextWord w0 w1 w9 w14]
        constants
  | _, _ => s

/-- Four bytes as a word, most significant byte first. -/
def wordsOfBytes : Bytes → List UInt32
  | b0 :: b1 :: b2 :: b3 :: rest =>
      (b0.toUInt32 <<< 24 ||| b1.toUInt32 <<< 16 ||| b2.toUInt32 <<< 8 ||| b3.toUInt32)
        :: wordsOfBytes rest
  | _ => []

/-- A word as four bytes, most significant byte first. -/
def bytesOfWord (w : UInt32) : Bytes :=
  [(w >>> 24).toUInt8, (w >>> 16).toUInt8, (w >>> 8).toUInt8, w.toUInt8]

/-- The chain after one block of 64 bytes. -/
def compress (s : Chain) (block : Bytes) : Chain :=
  let t := rounds s (wordsOfBytes block) roundConstants
  ⟨s.a + t.a, s.b + t.b, s.c + t.c, s.d + t.d, s.e + t.e, s.f + t.f, s.g + t.g, s.h + t.h⟩

/-- A running hash: the chain over the full blocks so far, the bytes of the
unfinished block with the last one first, and the number of bytes absorbed. -/
structure State where
  chain : Chain
  pending : Bytes
  size : Nat
  deriving DecidableEq

def start : State :=
  ⟨initialChain, [], 0⟩

/-- Absorb one byte; the last byte of a block runs the block. -/
def push (s : State) (b : UInt8) : State :=
  if s.size % 64 = 63 then
    ⟨compress s.chain (b :: s.pending).reverse, [], s.size + 1⟩
  else
    ⟨s.chain, b :: s.pending, s.size + 1⟩

def absorb (s : State) (bs : Bytes) : State :=
  bs.foldl push s

theorem absorb_append (s : State) (as bs : Bytes) :
    absorb s (as ++ bs) = absorb (absorb s as) bs :=
  List.foldl_append

/-- What follows a message of `size` bytes: a set bit, zeros up to the last
eight bytes of a block, and the length of the message in bits. -/
def padding (size : Nat) : Bytes :=
  0x80 :: (List.replicate ((119 - size % 64) % 64) 0 ++ (leBytes 8 (8 * size)).reverse)

/-- A message is followed by what fills up its last block. -/
theorem padding_complete (size : Nat) : (size + (padding size).length) % 64 = 0 := by
  simp only [padding, List.length_cons, List.length_append, List.length_replicate,
    List.length_reverse, leBytes_length]
  omega

def Chain.bytes (s : Chain) : Bytes :=
  bytesOfWord s.a ++ bytesOfWord s.b ++ bytesOfWord s.c ++ bytesOfWord s.d
    ++ bytesOfWord s.e ++ bytesOfWord s.f ++ bytesOfWord s.g ++ bytesOfWord s.h

def finish (s : State) : Hash256 :=
  .ofBytes (absorb s (padding s.size)).chain.bytes

def hash (bs : Bytes) : Hash256 :=
  finish (absorb start bs)

/-- The digest of the digest of what a state has absorbed. -/
def finishTwice (s : State) : Hash256 :=
  hash (finish s).bytes

/-- The digest of the digest of a byte string. -/
def hashTwice (bs : Bytes) : Hash256 :=
  hash (hash bs).bytes

theorem finishTwice_absorb_start (bs : Bytes) :
    finishTwice (absorb start bs) = hashTwice bs := rfl

end BlockProduction.Sha256

import BlockProduction.Proofs.Mining.Soundness

/-!
# Hashes of headers

A running hash compresses each block when its last byte comes in.  However a
message is cut into parts that are absorbed one after the other, the digest is
that of the whole message: padded to full blocks, which are compressed in order.
So the state of a nonce, which has absorbed the preimage of a header before the
nonce and the solution are known, gives the hash of the finished header.
-/

namespace BlockProduction

namespace Sha256

/-- The chain over the full blocks of a message; what does not fill a block is left out. -/
def compressAll (s : Chain) (message : Bytes) : Chain :=
  if 64 ≤ message.length then compressAll (compress s (message.take 64)) (message.drop 64) else s
termination_by message.length
decreasing_by
  rw [List.length_drop]
  omega

/-- The digest of a whole message. -/
def digest (message : Bytes) : Hash256 :=
  .ofBytes (compressAll initialChain (message ++ padding message.length)).bytes

/-! ## Absorbing blocks -/

variable {s : State} {message : Bytes}

theorem size_absorb (s : State) (message : Bytes) :
    (absorb s message).size = s.size + message.length := by
  induction message generalizing s with
  | nil => rfl
  | cons b rest ih =>
      have hpush : (push s b).size = s.size + 1 := by
        unfold push
        split <;> rfl
      show (absorb (push s b) rest).size = s.size + (rest.length + 1)
      rw [ih, hpush]
      omega

/-- Bytes that leave the block unfinished are only kept. -/
theorem absorb_of_lt (h : s.size % 64 + message.length < 64) :
    absorb s message = ⟨s.chain, message.reverse ++ s.pending, s.size + message.length⟩ := by
  induction message generalizing s with
  | nil => rfl
  | cons b rest ih =>
      rw [List.length_cons] at h
      have hpush : push s b = ⟨s.chain, b :: s.pending, s.size + 1⟩ := if_neg (by omega)
      show absorb (push s b) rest = _
      rw [hpush, ih (by simp only; omega), List.reverse_cons, List.append_assoc, List.length_cons,
        Nat.add_assoc, Nat.add_comm 1]
      rfl

/-- Sixty-four bytes from the start of a block on are that block. -/
theorem absorb_block {chain : Chain} {size : Nat} (hsize : size % 64 = 0) {block : Bytes}
    (hblock : block.length = 64) :
    absorb ⟨chain, [], size⟩ block = ⟨compress chain block, [], size + 64⟩ := by
  -- the last byte alone makes the block run
  have hne : block ≠ [] := List.ne_nil_of_length_pos (by omega)
  obtain ⟨front, b, rfl⟩ : ∃ front b, block = front ++ [b] :=
    ⟨_, _, (List.dropLast_concat_getLast hne).symm⟩
  rw [List.length_append, List.length_singleton] at hblock
  have hfront : absorb ⟨chain, [], size⟩ front = ⟨chain, front.reverse, size + 63⟩ := by
    have hlength : front.length = 63 := by omega
    rw [absorb_of_lt (by simp only; omega), List.append_nil, hlength]
  have hpush : push ⟨chain, front.reverse, size + 63⟩ b =
      ⟨compress chain (b :: front.reverse).reverse, [], size + 63 + 1⟩ :=
    if_pos (by simp only; omega)
  rw [absorb_append, hfront]
  show push _ b = _
  rw [hpush, List.reverse_cons, List.reverse_reverse]

/-- From the start of a block on, absorbing runs the full blocks. -/
theorem chain_absorb {size : Nat} (hsize : size % 64 = 0) (chain : Chain) (message : Bytes) :
    (absorb ⟨chain, [], size⟩ message).chain = compressAll chain message := by
  fun_induction compressAll chain message generalizing size with
  | case1 chain message hfull ih =>
      have hblock : (message.take 64).length = 64 := by
        rw [List.length_take]
        omega
      calc (absorb ⟨chain, [], size⟩ message).chain
          = (absorb ⟨chain, [], size⟩ (message.take 64 ++ message.drop 64)).chain := by
            rw [List.take_append_drop]
        _ = (absorb ⟨compress chain (message.take 64), [], size + 64⟩ (message.drop 64)).chain := by
            rw [absorb_append, absorb_block hsize hblock]
        _ = compressAll (compress chain (message.take 64)) (message.drop 64) := ih (by omega)
  | case2 chain message hshort =>
      have hlt : size % 64 + message.length < 64 := by omega
      rw [absorb_of_lt hlt]

/-- The digest of what a state has absorbed is the digest of the message as a whole. -/
theorem hash_eq_digest (message : Bytes) : hash message = digest message := by
  have hsize : (absorb start message).size = message.length := by
    rw [size_absorb]
    exact Nat.zero_add _
  rw [hash, finish, hsize, ← absorb_append, digest]
  exact congrArg (fun chain => Hash256.ofBytes (Chain.bytes chain))
    (chain_absorb rfl initialChain _)

theorem hashTwice_eq_digest (message : Bytes) :
    hashTwice message = digest (digest message).bytes := by
  rw [hashTwice, hash_eq_digest, hash_eq_digest]

end Sha256

/-! ## Hashes of finished headers -/

theorem Hash256.toWord_ofWord (w : Word256) : (ofWord w).toWord = w := by
  have hlt : w.toNat < 256 ^ 32 := w.isLt
  rw [toWord, bytes_ofWord, ofLeBytes_leBytes, Nat.mod_eq_of_lt hlt, BitVec.ofNat_toNat,
    BitVec.setWidth_eq]

/-- The state of a nonce gives the hash of the header with this nonce and a solution, whatever
nonce and solution the header had: the digest of the digest of its serialization, in which the
nonce stands with its least significant byte first. -/
theorem NonceState.headerHash_agrees (header : Header) (nonce : Word256) (solution : Bytes) :
    let solved : Header := { header with nonce := .ofWord nonce, solution }
    (ofMidstate header.midstate nonce).headerHash solution = solved.hash ∧
      solved.hash = Sha256.digest (Sha256.digest solved.serialize).bytes ∧
      solved.serialize =
        header.preimage ++ leBytes 32 nonce.toNat ++ CompactSize.counted solution ∧
      solved.nonce.toWord = nonce := by
  intro solved
  refine ⟨?_, ?_, ?_, ?_⟩
  · exact headerHash_ofMidstate header nonce solution
  · exact Sha256.hashTwice_eq_digest solved.serialize
  · rw [← Hash256.bytes_ofWord]
    exact header.serialize_with (.ofWord nonce) solution
  · exact Hash256.toWord_ofWord nonce

end BlockProduction

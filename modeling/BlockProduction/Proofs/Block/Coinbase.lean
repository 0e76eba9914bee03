import BlockProduction.Block.Coinbase
import BlockProduction.Proofs.Codec

/-!
# Serialized coinbases

The input script of a coinbase pushes the height in its shortest form and the
extra nonce in four bytes.

Main statement: different coinbases are serialized differently, and the
serialization has the script behind its length, always at the same place.
-/

namespace BlockProduction

/-- The shortest string of at least one byte whose bytes, least significant first, make up a
number. -/
structure ShortestBytes (n : Nat) (bs : Bytes) : Prop where
  ne_nil : bs ≠ []
  ofLeBytes_eq : ofLeBytes bs = n
  length_le : ∀ other : Bytes, other ≠ [] → ofLeBytes other = n → bs.length ≤ other.length

/-- A number that needs its last byte, or has but one, is written in its shortest form. -/
theorem shortestBytes_leBytes {n last : Nat} (hlow : last = 0 ∨ 256 ^ last ≤ n)
    (hhigh : n < 256 ^ (last + 1)) : ShortestBytes n (leBytes (last + 1) n) where
  ne_nil := List.cons_ne_nil _ _
  ofLeBytes_eq := ofLeBytes_leBytes_of_lt hhigh
  length_le := by
    intro other hne hother
    have hpos : 0 < other.length := List.length_pos_of_ne_nil hne
    have hlt := ofLeBytes_lt other
    rw [leBytes_length]
    rcases hlow with rfl | hlow
    · exact hpos
    · rw [hother] at hlt
      exact (Nat.pow_lt_pow_iff_right (by decide)).mp (Nat.lt_of_le_of_lt hlow hlt)

/-- A byte string behind its length in one byte. -/
def push (data : Bytes) : Bytes :=
  UInt8.ofNat data.length :: data

theorem push_append_inj {a b as bs : Bytes} (ha : a.length < 256) (hb : b.length < 256)
    (h : push a ++ as = push b ++ bs) : a = b ∧ as = bs := by
  obtain ⟨hcount, hrest⟩ := List.cons.inj h
  rw [← UInt8.toNat_inj, UInt8.toNat_ofNat_of_lt' ha, UInt8.toNat_ofNat_of_lt' hb] at hcount
  exact List.append_inj hrest hcount

/-- Up to this length, the length in front of a string is one byte. -/
theorem CompactSize.counted_of_lt {bs : Bytes} (h : bs.length < 0xfd) : counted bs = push bs := by
  have hword : (UInt64.ofNat bs.length).toNat = bs.length :=
    UInt64.toNat_ofNat_of_lt' (Nat.lt_trans h (by decide))
  rw [counted, encode_of_lt (by rwa [hword]), hword]
  rfl

namespace Coinbase

/-! ## The input script -/

theorem exists_heightBytes (height : UInt32) : ∃ last < 4,
    heightBytes height = leBytes (last + 1) height.toNat ∧
      (last = 0 ∨ 256 ^ last ≤ height.toNat) ∧ height.toNat < 256 ^ (last + 1) := by
  have hword := height.toNat_lt
  unfold heightBytes
  dsimp only
  split
  · exact ⟨0, by decide, rfl, .inl rfl, by omega⟩
  split
  · exact ⟨1, by decide, rfl, .inr (by omega), by omega⟩
  split
  · exact ⟨2, by decide, rfl, .inr (by omega), by omega⟩
  · exact ⟨3, by decide, rfl, .inr (by omega), by omega⟩

theorem shortestBytes_heightBytes (height : UInt32) :
    ShortestBytes height.toNat (heightBytes height) := by
  obtain ⟨last, -, heq, hlow, hhigh⟩ := exists_heightBytes height
  rw [heq]
  exact shortestBytes_leBytes hlow hhigh

theorem length_heightBytes_le (height : UInt32) : (heightBytes height).length ≤ 4 := by
  obtain ⟨last, hlast, heq, -⟩ := exists_heightBytes height
  rw [heq, leBytes_length]
  exact hlast

theorem heightBytes_inj {height other : UInt32} (h : heightBytes height = heightBytes other) :
    height = other := by
  rw [← UInt32.toNat_inj, ← (shortestBytes_heightBytes height).ofLeBytes_eq, h,
    (shortestBytes_heightBytes other).ofLeBytes_eq]

theorem inputScript_eq (tx : Coinbase) : tx.inputScript =
    push (heightBytes tx.height) ++ push (leBytes 4 tx.extraNonce.toNat) := rfl

theorem length_inputScript_le (tx : Coinbase) : tx.inputScript.length ≤ 10 := by
  have hheight := length_heightBytes_le tx.height
  simp only [inputScript_eq, push, List.length_append, List.length_cons, leBytes_length]
  omega

theorem inputScript_inj {tx other : Coinbase} (h : tx.inputScript = other.inputScript) :
    tx.height = other.height ∧ tx.extraNonce = other.extraNonce := by
  have hheight : ∀ height, (heightBytes height).length < 256 := fun height =>
    Nat.lt_of_le_of_lt (length_heightBytes_le height) (by decide)
  have hfour : ∀ n, (leBytes 4 n).length < 256 := fun n => by simp
  rw [inputScript_eq, inputScript_eq] at h
  obtain ⟨hheights, hpush⟩ := push_append_inj (hheight _) (hheight _) h
  have happend := congrArg (· ++ []) hpush
  obtain ⟨hnonces, -⟩ := push_append_inj (hfour _) (hfour _) happend
  refine ⟨heightBytes_inj hheights, UInt32.toNat_inj.mp ?_⟩
  exact leBytes_inj tx.extraNonce.toNat_lt other.extraNonce.toNat_lt hnonces

/-! ## The serialization -/

/-- The version, the number of inputs and the output that the only one of them names. -/
def opening : Bytes :=
  [1, 0, 0, 0] ++ [1] ++ List.replicate 32 0 ++ List.replicate 4 0xff

/-- The sequence of the input and the number of outputs. -/
def middle : Bytes :=
  List.replicate 4 0xff ++ [1]

theorem serialize_eq (tx : Coinbase) : tx.serialize =
    opening ++ (push tx.inputScript ++ (middle ++ (leBytes 8 tx.value.toNat ++
      (CompactSize.counted tx.payoutScript ++ leBytes 4 0)))) := by
  have hlength := length_inputScript_le tx
  rw [← CompactSize.counted_of_lt (by omega)]
  simp only [serialize, opening, middle, List.append_assoc]
  rfl

theorem serialize_injective : Function.Injective serialize := by
  intro tx other h
  have hscript : ∀ tx : Coinbase, tx.inputScript.length < 256 := fun tx =>
    Nat.lt_of_le_of_lt (length_inputScript_le tx) (by decide)
  have hvalue : ∀ tx : Coinbase, (leBytes 8 tx.value.toNat).length = 8 := fun _ =>
    leBytes_length _ _
  rw [serialize_eq, serialize_eq] at h
  obtain ⟨hscripts, h⟩ := push_append_inj (hscript _) (hscript _) (List.append_cancel_left h)
  obtain ⟨hvalues, h⟩ :=
    List.append_inj (List.append_cancel_left h) ((hvalue tx).trans (hvalue other).symm)
  -- the script that ends the output needs no bound: nothing of any other length follows it
  obtain ⟨-, hpayouts⟩ := Codec.counted_append_inj h
  obtain ⟨hheight, hnonce⟩ := inputScript_inj hscripts
  have hvalue := UInt64.toNat_inj.mp (leBytes_inj tx.value.toNat_lt other.value.toNat_lt hvalues)
  have hpayout := List.append_cancel_right hpayouts
  cases tx
  cases other
  simp_all only

/-- The parts of an input script: the height, in its shortest form, and the four bytes of the extra
nonce. -/
structure Pushes (tx : Coinbase) (height nonce : Bytes) : Prop where
  height_shortest : ShortestBytes tx.height.toNat height
  height_length : height.length ≤ 4
  nonce_length : nonce.length = 4
  nonce_eq : ofLeBytes nonce = tx.extraNonce.toNat
  inputScript_eq : tx.inputScript = push height ++ push nonce

theorem pushes (tx : Coinbase) :
    tx.Pushes (heightBytes tx.height) (leBytes 4 tx.extraNonce.toNat) where
  height_shortest := shortestBytes_heightBytes tx.height
  height_length := length_heightBytes_le tx.height
  nonce_length := leBytes_length _ _
  nonce_eq := ofLeBytes_leBytes_of_lt tx.extraNonce.toNat_lt
  inputScript_eq := rfl

/-- No two coinbases are serialized alike; and every one has a script that pushes its height and its
extra nonce, and is serialized with this script, behind its length, after the same 41 bytes. -/
theorem serialize_commits :
    Function.Injective serialize ∧ opening.length = 41 ∧
    ∀ tx : Coinbase, (∃ height nonce, tx.Pushes height nonce) ∧ tx.inputScript.length ≤ 10 ∧
      ∃ rest, tx.serialize = opening ++ push tx.inputScript ++ rest := by
  refine ⟨serialize_injective, rfl, fun tx => ⟨⟨_, _, tx.pushes⟩, length_inputScript_le tx, ?_⟩⟩
  rw [serialize_eq, ← List.append_assoc]
  exact ⟨_, rfl⟩

/-- A height of zero still takes a byte. -/
example : (⟨0, 0, [], 7⟩ : Coinbase).inputScript = [1, 0, 4, 7, 0, 0, 0] := by decide

end Coinbase

end BlockProduction

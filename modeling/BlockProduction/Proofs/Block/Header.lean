import BlockProduction.Block.Header
import BlockProduction.Proofs.Codec

/-!
# Reading serialized headers

The fields of a header have fixed widths, but for the solution, which stands
behind its length.  So a header can be read off the front of any byte string.

Main statement: the headers that are read are exactly those that were
serialized; headers with the same serialization are equal, and so are headers
of which one is serialized to the beginning of the other.  A solution has to be
shorter than `2 ^ 64` bytes, as every string in memory is.
-/

namespace BlockProduction.Header

/-- The fields before the solution. -/
abbrev Front : Type :=
  Int32 × Hash256 × Hash256 × Hash256 × UInt32 × UInt32 × Hash256

def front (header : Header) : Front :=
  (header.version, header.prevHash, header.merkleRoot, header.reserved, header.time, header.bits,
    header.nonce)

def ofFront : Front → Bytes → Header
  | (version, prevHash, merkleRoot, reserved, time, bits, nonce), solution =>
      { version, prevHash, merkleRoot, reserved, time, bits, nonce, solution }

def frontCodec : Codec Front :=
  .pair .int32 <| .pair .hash <| .pair .hash <| .pair .hash <| .pair .word32 <|
    .pair .word32 .hash

def codec : Codec Header :=
  (frontCodec.pair .counted).image (fun (front, solution) => ofFront front solution)
    (fun header => (header.front, header.solution)) (fun _ _ => rfl) (fun _ => rfl)

/-- The header in front of a byte string, and what follows it. -/
def decode? (bs : Bytes) : Option (Header × Bytes) :=
  codec.read? bs

variable {header other : Header} {bs rest rest' : Bytes}

theorem frontCodec_fits (front : Front) : frontCodec.Fits front :=
  ⟨leBytes_length _ _, Hash256.length_bytes _, Hash256.length_bytes _, Hash256.length_bytes _,
    leBytes_length _ _, leBytes_length _ _, Hash256.length_bytes _⟩

theorem codec_fits_iff : codec.Fits header ↔ header.solution.length < 2 ^ 64 :=
  and_iff_right (frontCodec_fits header.front)

theorem serialize_eq (header : Header) :
    header.serialize = frontCodec.write header.front ++ CompactSize.counted header.solution := by
  simp only [serialize, preimage, List.append_assoc]
  rfl

theorem decode?_eq_some_iff : decode? bs = some (header, rest) ↔
    header.solution.length < 2 ^ 64 ∧ bs = header.serialize ++ rest := by
  rw [decode?, codec.read?_eq_some_iff, codec_fits_iff, serialize_eq]
  rfl

/-- Serializations of headers agree field by field, as far as they go on alike. -/
theorem serialize_append_inj (h : header.serialize ++ rest = other.serialize ++ rest') :
    header.front = other.front ∧
      UInt64.ofNat header.solution.length = UInt64.ofNat other.solution.length ∧
        header.solution ++ rest = other.solution ++ rest' := by
  rw [serialize_eq, serialize_eq, List.append_assoc, List.append_assoc] at h
  obtain ⟨hfront, hcounted⟩ := frontCodec.append_inj (frontCodec_fits _) (frontCodec_fits _) h
  exact ⟨hfront, Codec.counted_append_inj hcounted⟩

theorem eq_of_front_eq (hfront : header.front = other.front)
    (hsolution : header.solution = other.solution) : header = other :=
  calc header = ofFront header.front header.solution := rfl
    _ = ofFront other.front other.solution := by rw [hfront, hsolution]
    _ = other := rfl

theorem serialize_injective : Function.Injective serialize := by
  intro header other h
  have happend : header.serialize ++ [] = other.serialize ++ [] := by rw [h]
  obtain ⟨hfront, -, hsolution⟩ := serialize_append_inj happend
  rw [List.append_nil, List.append_nil] at hsolution
  exact eq_of_front_eq hfront hsolution

/-- The length in front of a solution tells where it ends. -/
theorem eq_of_serialize_prefix (hlt : other.solution.length < 2 ^ 64)
    (h : header.serialize <+: other.serialize) : header = other := by
  obtain ⟨rest, hrest⟩ := h
  have happend : header.serialize ++ rest = other.serialize ++ [] := by
    rw [hrest, List.append_nil]
  obtain ⟨hfront, hword, hsolution⟩ := serialize_append_inj happend
  have hle : header.solution.length + rest.length = other.solution.length := by
    rw [← List.length_append, hsolution, List.append_nil]
  have hlt' : header.solution.length < 2 ^ 64 := by omega
  have hlength : header.solution.length = other.solution.length := by
    rwa [← UInt64.toNat_inj, UInt64.toNat_ofNat_of_lt' hlt', UInt64.toNat_ofNat_of_lt' hlt]
      at hword
  exact eq_of_front_eq hfront (List.append_inj hsolution hlength).1

/-- Decoding reads every header that was serialized, whatever follows it, and no other; and no
serialization is that of another header or begins it. -/
theorem serialize_decodable :
    (∀ bs header rest, decode? bs = some (header, rest) ↔
      header.solution.length < 2 ^ 64 ∧ bs = header.serialize ++ rest) ∧
    Function.Injective serialize ∧
    ∀ header other : Header, other.solution.length < 2 ^ 64 →
      header.serialize <+: other.serialize → header = other :=
  ⟨fun _ _ _ => decode?_eq_some_iff, serialize_injective, fun _ _ => eq_of_serialize_prefix⟩

/-- A negative version, and the shortest solution with a length behind a marker. -/
def longHeader : Header :=
  { version := -2
    prevHash := .fill 1
    merkleRoot := .fill 2
    reserved := .zero
    time := 0xffffffff
    bits := 0x207fffff
    nonce := .fill 0xff
    solution := List.replicate 253 7 }

theorem serialize_decodable_longHeader :
    decode? (longHeader.serialize ++ [0xfd, 0]) = some (longHeader, [0xfd, 0]) ∧
    longHeader.solution.length < 2 ^ 64 ∧
    ∀ header : Header, header.serialize <+: longHeader.serialize → header = longHeader := by
  have hlength : longHeader.solution.length = 253 := List.length_replicate
  have hlt : longHeader.solution.length < 2 ^ 64 := by omega
  obtain ⟨hdecode, -, hprefix⟩ := serialize_decodable
  exact ⟨(hdecode _ _ _).mpr ⟨hlt, rfl⟩, hlt, fun header => hprefix header longHeader hlt⟩

end BlockProduction.Header

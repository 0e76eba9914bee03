import BlockProduction.Proofs.CompactSize

/-!
# Codecs

A codec writes values so that they can be read off the front of any byte string:
reading accepts exactly what writing produces, takes no more and no less than
that, and leaves what follows.  A codec of several fields is put together from
the codecs of the fields.
-/

namespace BlockProduction

structure Codec (α : Type) where
  write : α → Bytes
  /-- The value in front of a byte string, and what follows it. -/
  read? : Bytes → Option (α × Bytes)
  /-- Whether a value can be written. -/
  Fits : α → Prop
  read?_eq_some_iff : ∀ {bs : Bytes} {value : α} {rest : Bytes},
    read? bs = some (value, rest) ↔ Fits value ∧ bs = write value ++ rest

namespace Codec

variable {α β : Type}

/-- What is written is read, whatever follows it. -/
theorem read?_append (codec : Codec α) {value : α} (h : codec.Fits value) (rest : Bytes) :
    codec.read? (codec.write value ++ rest) = some (value, rest) :=
  codec.read?_eq_some_iff.mpr ⟨h, rfl⟩

/-- No written value is the beginning of another. -/
theorem append_inj (codec : Codec α) {a b : α} {as bs : Bytes} (ha : codec.Fits a)
    (hb : codec.Fits b) (h : codec.write a ++ as = codec.write b ++ bs) : a = b ∧ as = bs := by
  have hread : some (a, as) = some (b, bs) := by
    rw [← codec.read?_append ha as, h, codec.read?_append hb bs]
  exact Prod.mk.inj (Option.some.inj hread)

/-! ## Parts -/

/-- Byte strings of one length. -/
def fixed (width : Nat) : Codec Bytes where
  write bs := bs
  read? bs := if width ≤ bs.length then some (bs.take width, bs.drop width) else none
  Fits bs := bs.length = width
  read?_eq_some_iff := by
    intro bs value rest
    constructor
    · intro h
      split at h
      · rename_i hfits
        obtain ⟨rfl, rfl⟩ := Prod.mk.inj (Option.some.inj h)
        exact ⟨List.length_take_of_le hfits, (List.take_append_drop width bs).symm⟩
      · contradiction
    · rintro ⟨rfl, rfl⟩
      rw [if_pos (by simp), List.take_left, List.drop_left]

/-- One value behind another. -/
def pair (first : Codec α) (second : Codec β) : Codec (α × β) where
  write v := first.write v.1 ++ second.write v.2
  read? bs := do
    let (a, bs) ← first.read? bs
    let (b, bs) ← second.read? bs
    return ((a, b), bs)
  Fits v := first.Fits v.1 ∧ second.Fits v.2
  read?_eq_some_iff := by
    rintro bs ⟨a, b⟩ rest
    simp only [Option.bind_eq_bind, Option.bind_eq_some_iff, Option.pure_def, Option.some.injEq,
      Prod.exists, Prod.mk.injEq, first.read?_eq_some_iff, second.read?_eq_some_iff]
    constructor
    · rintro ⟨a, mid, ⟨ha, rfl⟩, b, rest, ⟨hb, rfl⟩, ⟨rfl, rfl⟩, rfl⟩
      exact ⟨⟨ha, hb⟩, (List.append_assoc _ _ _).symm⟩
    · rintro ⟨⟨ha, hb⟩, rfl⟩
      exact ⟨a, _, ⟨ha, List.append_assoc _ _ _⟩, b, rest, ⟨hb, rfl⟩, ⟨rfl, rfl⟩, rfl⟩

/-- Values that are written as other ones. -/
def image (codec : Codec α) (make : α → β) (view : β → α)
    (view_make : ∀ a, codec.Fits a → view (make a) = a) (make_view : ∀ b, make (view b) = b) :
    Codec β where
  write b := codec.write (view b)
  read? bs := (codec.read? bs).map fun (a, rest) => (make a, rest)
  Fits b := codec.Fits (view b)
  read?_eq_some_iff := by
    intro bs b rest
    simp only [Option.map_eq_some_iff, Prod.exists, Prod.mk.injEq, codec.read?_eq_some_iff]
    constructor
    · rintro ⟨a, rest, ⟨ha, rfl⟩, rfl, rfl⟩
      rw [view_make a ha]
      exact ⟨ha, rfl⟩
    · rintro ⟨hb, rfl⟩
      exact ⟨view b, rest, ⟨hb, rfl⟩, make_view b, rfl⟩

/-! ## Numbers and hashes -/

def hash : Codec Hash256 :=
  (fixed 32).image .ofBytes Hash256.bytes (fun _ h => Hash256.bytes_ofBytes h)
    Hash256.ofBytes_bytes

/-- A 32-bit word, least significant byte first. -/
def word32 : Codec UInt32 :=
  (fixed 4).image (fun bs => UInt32.ofNat (ofLeBytes bs)) (fun w => leBytes 4 w.toNat)
    (by
      intro bs (h : bs.length = 4)
      rw [UInt32.toNat_ofNat_of_lt' (ofLeBytes_lt_of_length h), leBytes_ofLeBytes_of_length h])
    (by
      intro w
      rw [ofLeBytes_leBytes_of_lt w.toNat_lt, UInt32.ofNat_toNat])

/-- A signed 32-bit word, as the word with the same bits. -/
def int32 : Codec Int32 :=
  word32.image UInt32.toInt32 Int32.toUInt32 (fun _ _ => rfl) (fun _ => rfl)

/-! ## Counted strings -/

def compactSize : Codec UInt64 where
  write := CompactSize.encode
  read? := CompactSize.read?
  Fits _ := True
  read?_eq_some_iff := by
    intro bs n rest
    rw [CompactSize.read?_eq_some_iff, true_and]

/-- Strings behind their length, which has to fit into a word. -/
def counted : Codec Bytes where
  write := CompactSize.counted
  read? bs := do
    let (n, bs) ← compactSize.read? bs
    (fixed n.toNat).read? bs
  Fits bs := bs.length < 2 ^ 64
  read?_eq_some_iff := by
    intro bs value rest
    simp only [Option.bind_eq_bind, Option.bind_eq_some_iff, Prod.exists,
      compactSize.read?_eq_some_iff, (fixed _).read?_eq_some_iff]
    constructor
    · rintro ⟨n, mid, ⟨-, rfl⟩, hlength, rfl⟩
      have hlength : value.length = n.toNat := hlength
      refine ⟨hlength ▸ n.toNat_lt, ?_⟩
      rw [CompactSize.counted, hlength, UInt64.ofNat_toNat, List.append_assoc]
      rfl
    · rintro ⟨hlt, rfl⟩
      refine ⟨UInt64.ofNat value.length, value ++ rest, ⟨trivial, ?_⟩, ?_, rfl⟩
      · exact List.append_assoc _ _ _
      · exact (UInt64.toNat_ofNat_of_lt' hlt).symm

/-- Of two strings behind their lengths, neither the lengths nor what follows them differ, even where
the lengths do not fit. -/
theorem counted_append_inj {a b as bs : Bytes}
    (h : CompactSize.counted a ++ as = CompactSize.counted b ++ bs) :
    UInt64.ofNat a.length = UInt64.ofNat b.length ∧ a ++ as = b ++ bs := by
  rw [CompactSize.counted, CompactSize.counted, List.append_assoc, List.append_assoc] at h
  exact compactSize.append_inj trivial trivial h

end Codec

end BlockProduction

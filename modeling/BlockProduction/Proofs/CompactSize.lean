import BlockProduction.CompactSize
import BlockProduction.Proofs.Bytes

/-!
# Reading variable-length integers

A reader takes an integer off the front of a byte string.  It refuses an integer
that is not in its shortest form, so that each one has one form, and no form is
the beginning of another.  A second reader takes every form that holds an
integer; what is written is read by both where it stands, and nothing shorter is
read as the same integer.
-/

namespace BlockProduction.CompactSize

variable {n : UInt64} {width least : Nat} {bs rest : Bytes}

/-! ## Forms -/

theorem encode_of_lt (h : n.toNat < 0xfd) : encode n = [UInt8.ofNat n.toNat] :=
  if_pos h

theorem encode_two (hlow : 0xfd ≤ n.toNat) (hhigh : n.toNat < 0x10000) :
    encode n = 0xfd :: leBytes 2 n.toNat := by
  have h : ¬n.toNat < 0xfd := by omega
  simp only [encode, if_neg h, if_pos hhigh]

theorem encode_four (hlow : 0x10000 ≤ n.toNat) (hhigh : n.toNat < 0x100000000) :
    encode n = 0xfe :: leBytes 4 n.toNat := by
  have h : ¬n.toNat < 0xfd := by omega
  have h' : ¬n.toNat < 0x10000 := by omega
  simp only [encode, if_neg h, if_neg h', if_pos hhigh]

theorem encode_eight (hlow : 0x100000000 ≤ n.toNat) : encode n = 0xff :: leBytes 8 n.toNat := by
  have h : ¬n.toNat < 0xfd := by omega
  have h' : ¬n.toNat < 0x10000 := by omega
  have h'' : ¬n.toNat < 0x100000000 := by omega
  simp only [encode, if_neg h, if_neg h', if_neg h'']

/-- An integer falls into the bounds of one form. -/
theorem width_cases (n : UInt64) : n.toNat < 0xfd ∨ (0xfd ≤ n.toNat ∧ n.toNat < 0x10000) ∨
    (0x10000 ≤ n.toNat ∧ n.toNat < 0x100000000) ∨ 0x100000000 ≤ n.toNat := by
  omega

/-- A byte that stands for itself is no marker. -/
theorem byte_of_lt (h : n.toNat < 0xfd) :
    UInt8.ofNat n.toNat < 0xfd ∧ (UInt8.ofNat n.toNat).toUInt64 = n := by
  have hbyte : (UInt8.ofNat n.toNat).toNat = n.toNat := by
    rw [UInt8.toNat_ofNat']
    omega
  constructor
  · rw [UInt8.lt_iff_toNat_lt, hbyte]
    exact h
  · rw [← UInt64.toNat_inj, UInt8.toNat_toUInt64, hbyte]

/-! ## Reading -/

/-- Read the number behind a marker; `least` is the least one that has no shorter form. -/
def readWide? (width least : Nat) (bs : Bytes) : Option (UInt64 × Bytes) :=
  if width ≤ bs.length ∧ least ≤ ofLeBytes (bs.take width) then
    some (UInt64.ofNat (ofLeBytes (bs.take width)), bs.drop width)
  else none

/-- Read an integer and tell what follows it. -/
def read? : Bytes → Option (UInt64 × Bytes)
  | [] => none
  | marker :: bs =>
      if marker < 0xfd then some (marker.toUInt64, bs)
      else if marker = 0xfd then readWide? 2 0xfd bs
      else if marker = 0xfe then readWide? 4 0x10000 bs
      else readWide? 8 0x100000000 bs

theorem read?_of_lt {marker : UInt8} (h : marker < 0xfd) :
    read? (marker :: bs) = some (marker.toUInt64, bs) :=
  if_pos h

theorem read?_two (bs : Bytes) : read? (0xfd :: bs) = readWide? 2 0xfd bs := rfl

theorem read?_four (bs : Bytes) : read? (0xfe :: bs) = readWide? 4 0x10000 bs := rfl

theorem read?_eight (bs : Bytes) : read? (0xff :: bs) = readWide? 8 0x100000000 bs := rfl

/-- A marker is one of three bytes. -/
theorem marker_cases (marker : UInt8) :
    marker < 0xfd ∨ marker = 0xfd ∨ marker = 0xfe ∨ marker = 0xff := by
  have hbyte := marker.toNat_lt
  rw [UInt8.lt_iff_toNat_lt, ← UInt8.toNat_inj, ← UInt8.toNat_inj, ← UInt8.toNat_inj]
  simp only [UInt8.reduceToNat]
  omega

theorem readWide?_eq_some_iff (hwidth : width ≤ 8) : readWide? width least bs = some (n, rest) ↔
    (least ≤ n.toNat ∧ n.toNat < 256 ^ width) ∧ bs = leBytes width n.toNat ++ rest := by
  have hword : 256 ^ width ≤ 2 ^ 64 :=
    Nat.le_trans (Nat.pow_le_pow_right (by decide) hwidth) (by decide)
  unfold readWide?
  constructor
  · intro h
    split at h
    · rename_i hfits
      have hlength : (bs.take width).length = width := by
        rw [List.length_take]
        omega
      have hlt := ofLeBytes_lt_of_length hlength
      obtain ⟨rfl, rfl⟩ := Prod.mk.inj (Option.some.inj h)
      rw [UInt64.toNat_ofNat_of_lt' (Nat.lt_of_lt_of_le hlt hword),
        leBytes_ofLeBytes_of_length hlength, List.take_append_drop]
      exact ⟨⟨hfits.2, hlt⟩, rfl⟩
    · contradiction
  · rintro ⟨⟨hleast, hlt⟩, rfl⟩
    have hlength : (leBytes width n.toNat).length = width := leBytes_length _ _
    rw [List.take_left' hlength, List.drop_left' hlength, ofLeBytes_leBytes_of_lt hlt,
      UInt64.ofNat_toNat, if_pos ⟨by simp, hleast⟩]

/-- Exactly the integers in their shortest form are read. -/
theorem read?_eq_some_iff : read? bs = some (n, rest) ↔ bs = encode n ++ rest := by
  constructor
  · intro h
    match bs with
    | [] => contradiction
    | marker :: bs =>
        rcases marker_cases marker with hsmall | rfl | rfl | rfl
        · rw [read?_of_lt hsmall] at h
          obtain ⟨rfl, rfl⟩ := Prod.mk.inj (Option.some.inj h)
          rw [UInt8.lt_iff_toNat_lt] at hsmall
          rw [encode_of_lt (by simpa using hsmall)]
          simp
        · rw [read?_two, readWide?_eq_some_iff (by decide)] at h
          rw [h.2, encode_two h.1.1 h.1.2, List.cons_append]
        · rw [read?_four, readWide?_eq_some_iff (by decide)] at h
          rw [h.2, encode_four h.1.1 h.1.2, List.cons_append]
        · rw [read?_eight, readWide?_eq_some_iff (by decide)] at h
          rw [h.2, encode_eight h.1.1, List.cons_append]
  · rintro rfl
    rcases width_cases n with h | h | h | h
    · obtain ⟨hsmall, hback⟩ := byte_of_lt h
      rw [encode_of_lt h, List.singleton_append, read?_of_lt hsmall, hback]
    · rw [encode_two h.1 h.2, List.cons_append, read?_two, readWide?_eq_some_iff (by decide)]
      exact ⟨h, rfl⟩
    · rw [encode_four h.1 h.2, List.cons_append, read?_four, readWide?_eq_some_iff (by decide)]
      exact ⟨h, rfl⟩
    · rw [encode_eight h, List.cons_append, read?_eight, readWide?_eq_some_iff (by decide)]
      exact ⟨⟨h, n.toNat_lt⟩, rfl⟩

/-! ## All forms -/

/-- A byte of its own, or a marker and a number of two, four or eight bytes behind it. -/
inductive Form where
  | byte
  | two
  | four
  | eight
  deriving DecidableEq

namespace Form

/-- The least number that a form does not hold. -/
def bound : Form → Nat
  | byte => 0xfd
  | two => 0x10000
  | four => 0x100000000
  | eight => 0x10000000000000000

/-- The number of bytes of a form. -/
def length : Form → Nat
  | byte => 1
  | two => 3
  | four => 5
  | eight => 9

def write (n : UInt64) : Form → Bytes
  | byte => [UInt8.ofNat n.toNat]
  | two => 0xfd :: leBytes 2 n.toNat
  | four => 0xfe :: leBytes 4 n.toNat
  | eight => 0xff :: leBytes 8 n.toNat

@[simp] theorem length_write (form : Form) (n : UInt64) :
    (form.write n).length = form.length := by
  cases form <;> rfl

/-- The form holds the number, and no other form that does is shorter. -/
def Shortest (form : Form) (n : UInt64) : Prop :=
  n.toNat < form.bound ∧ ∀ other : Form, n.toNat < other.bound → form.length ≤ other.length

theorem exists_shortest (n : UInt64) :
    ∃ form : Form, form.Shortest n ∧ encode n = form.write n := by
  rcases width_cases n with h | h | h | h
  · refine ⟨byte, ⟨h, fun other _ => ?_⟩, encode_of_lt h⟩
    cases other <;> decide
  · refine ⟨two, ⟨h.2, fun other hother => ?_⟩, encode_two h.1 h.2⟩
    cases other <;> simp only [bound, length] at hother ⊢ <;> omega
  · refine ⟨four, ⟨h.2, fun other hother => ?_⟩, encode_four h.1 h.2⟩
    cases other <;> simp only [bound, length] at hother ⊢ <;> omega
  · refine ⟨eight, ⟨n.toNat_lt, fun other hother => ?_⟩, encode_eight h⟩
    cases other <;> simp only [bound, length] at hother ⊢ <;> omega

end Form

/-- Read an integer in any form. -/
def readAny? : Bytes → Option (UInt64 × Bytes)
  | [] => none
  | marker :: bs =>
      if marker < 0xfd then some (marker.toUInt64, bs)
      else if marker = 0xfd then readWide? 2 0 bs
      else if marker = 0xfe then readWide? 4 0 bs
      else readWide? 8 0 bs

theorem readAny?_of_lt {marker : UInt8} (h : marker < 0xfd) :
    readAny? (marker :: bs) = some (marker.toUInt64, bs) :=
  if_pos h

theorem readAny?_two (bs : Bytes) : readAny? (0xfd :: bs) = readWide? 2 0 bs := rfl

theorem readAny?_four (bs : Bytes) : readAny? (0xfe :: bs) = readWide? 4 0 bs := rfl

theorem readAny?_eight (bs : Bytes) : readAny? (0xff :: bs) = readWide? 8 0 bs := rfl

/-- Exactly the forms that hold an integer are read. -/
theorem readAny?_eq_some_iff : readAny? bs = some (n, rest) ↔
    ∃ form : Form, n.toNat < form.bound ∧ bs = form.write n ++ rest := by
  constructor
  · intro h
    match bs with
    | [] => contradiction
    | marker :: bs =>
        rcases marker_cases marker with hsmall | rfl | rfl | rfl
        · rw [readAny?_of_lt hsmall] at h
          obtain ⟨rfl, rfl⟩ := Prod.mk.inj (Option.some.inj h)
          rw [UInt8.lt_iff_toNat_lt] at hsmall
          exact ⟨.byte, by simpa [Form.bound] using hsmall, by simp [Form.write]⟩
        · rw [readAny?_two, readWide?_eq_some_iff (by decide)] at h
          exact ⟨.two, h.1.2, by rw [h.2, Form.write, List.cons_append]⟩
        · rw [readAny?_four, readWide?_eq_some_iff (by decide)] at h
          exact ⟨.four, h.1.2, by rw [h.2, Form.write, List.cons_append]⟩
        · rw [readAny?_eight, readWide?_eq_some_iff (by decide)] at h
          exact ⟨.eight, h.1.2, by rw [h.2, Form.write, List.cons_append]⟩
  · rintro ⟨form, hholds, rfl⟩
    cases form with
    | byte =>
        obtain ⟨hsmall, hback⟩ := byte_of_lt hholds
        rw [Form.write, List.singleton_append, readAny?_of_lt hsmall, hback]
    | two =>
        rw [Form.write, List.cons_append, readAny?_two, readWide?_eq_some_iff (by decide)]
        exact ⟨⟨Nat.zero_le _, hholds⟩, rfl⟩
    | four =>
        rw [Form.write, List.cons_append, readAny?_four, readWide?_eq_some_iff (by decide)]
        exact ⟨⟨Nat.zero_le _, hholds⟩, rfl⟩
    | eight =>
        rw [Form.write, List.cons_append, readAny?_eight, readWide?_eq_some_iff (by decide)]
        exact ⟨⟨Nat.zero_le _, hholds⟩, rfl⟩

/-- Read at a place of a byte string, and tell the place behind what is read. -/
def readAt? (read? : Bytes → Option (UInt64 × Bytes)) (bs : Bytes) (start : Nat) :
    Option (UInt64 × Nat) :=
  (read? (bs.drop start)).map fun (n, rest) => (n, bs.length - rest.length)

theorem readAt?_append {read? : Bytes → Option (UInt64 × Bytes)} {code : Bytes}
    (h : read? (code ++ rest) = some (n, rest)) (before : Bytes) :
    readAt? read? (before ++ code ++ rest) before.length = some (n, (before ++ code).length) := by
  rw [readAt?, List.append_assoc, List.drop_left, h, ← List.append_assoc]
  show some (n, (before ++ code ++ rest).length - rest.length) = _
  rw [List.length_append, Nat.add_sub_cancel]

/-- An integer is appended in a form from which it is read where it stands, up to its end, by a
reader of any form and by one that insists on the shortest.  There is no shorter form, and the
appended form is not the beginning of another. -/
theorem append_canonical (n : UInt64) (before after : Bytes) :
    (append before n).take before.length = before ∧
    readAt? readAny? (append before n ++ after) before.length =
      some (n, (append before n).length) ∧
    readAt? read? (append before n ++ after) before.length = some (n, (append before n).length) ∧
    (append before n ++ after).drop (append before n).length = after ∧
    (∃ form : Form, form.Shortest n ∧ append before n = before ++ form.write n) ∧
    (∀ code rest : Bytes, readAny? (code ++ rest) = some (n, rest) →
      (append before n).length ≤ (before ++ code).length) ∧
    ∀ (m : UInt64) (rest : Bytes), append before n ++ after = append before m ++ rest ↔
      n = m ∧ after = rest := by
  obtain ⟨form, hshortest, hform⟩ := Form.exists_shortest n
  have hany : readAny? (encode n ++ after) = some (n, after) :=
    readAny?_eq_some_iff.mpr ⟨form, hshortest.1, by rw [hform]⟩
  refine ⟨List.take_left, readAt?_append hany before,
    readAt?_append (read?_eq_some_iff.mpr rfl) before, List.drop_left,
    ⟨form, hshortest, congrArg _ hform⟩, ?_, ?_⟩
  · intro code rest hread
    obtain ⟨other, hholds, heq⟩ := readAny?_eq_some_iff.mp hread
    have hle := hshortest.2 other hholds
    rw [List.append_cancel_right heq, append, hform, List.length_append, List.length_append,
      Form.length_write, Form.length_write]
    omega
  · intro m rest
    rw [append, append, List.append_assoc, List.append_assoc, List.append_cancel_left_eq,
      ← read?_eq_some_iff (n := m), read?_eq_some_iff.mpr rfl, Option.some.injEq, Prod.mk.injEq]

/-- The least value with a marker: it is also read behind a marker that is wider than it needs. -/
theorem append_canonical_least_wide :
    let out := append [7] 0xfd
    (readAt? readAny? (out ++ [1]) 1 = some (0xfd, 4) ∧ out.take 1 = [7]) ∧
    readAny? ([0xfe, 0xfd, 0, 0, 0] ++ [1]) = some (0xfd, [1]) ∧
    out.length ≤ ([7] ++ [0xfe, 0xfd, 0, 0, 0] : Bytes).length := by
  intro out
  obtain ⟨htake, hread, -, -, -, hshort, -⟩ := append_canonical 0xfd [7] [1]
  have hwide : readAny? ([0xfe, 0xfd, 0, 0, 0] ++ [1]) = some (0xfd, [1]) := by decide
  exact ⟨⟨hread, htake⟩, hwide, hshort _ _ hwide⟩

end BlockProduction.CompactSize

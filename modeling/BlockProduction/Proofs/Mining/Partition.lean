import BlockProduction.Mining.Search

/-!
# Parts of a range

A range is split into parts that follow one another without a gap, so that each
nonce of the range lies in one of them, and the parts have as many nonces as
the range.
-/

namespace BlockProduction

namespace NonceRange

/-- A number lies between the first and the last nonce. -/
def Holds (range : NonceRange) (n : Nat) : Prop :=
  range.start.toNat ≤ n ∧ n ≤ range.last.toNat

def size (range : NonceRange) : Nat :=
  range.last.toNat + 1 - range.start.toNat

/-! ## Rows of parts -/

/-- Parts that follow one another, from a number up to the number before another, with a nonce
each. -/
inductive Span : Nat → List NonceRange → Nat → Prop
  | nil (a : Nat) : Span a [] a
  | cons {part : NonceRange} {rest : List NonceRange} {b : Nat}
      (hordered : part.start.toNat ≤ part.last.toNat) (hrest : Span (part.last.toNat + 1) rest b) :
      Span part.start.toNat (part :: rest) b

namespace Span

variable {a b : Nat} {parts : List NonceRange}

theorem le (h : Span a parts b) : a ≤ b := by
  induction h with
  | nil a => exact Nat.le_refl a
  | cons hordered hrest ih => omega

/-- No number is left out. -/
theorem exists_part_iff (h : Span a parts b) (n : Nat) :
    (∃ part ∈ parts, part.Holds n) ↔ a ≤ n ∧ n < b := by
  induction h with
  | nil a =>
      have hnone : ¬(a ≤ n ∧ n < a) := by omega
      simp [hnone]
  | cons hordered hrest ih =>
      have hle := hrest.le
      simp only [List.mem_cons, exists_eq_or_imp]
      rw [ih, Holds]
      omega

theorem ordered (h : Span a parts b) {part : NonceRange} (hpart : part ∈ parts) :
    part.start.toNat ≤ part.last.toNat := by
  induction h with
  | nil a => nomatch hpart
  | cons hordered hrest ih =>
      rcases List.mem_cons.mp hpart with rfl | hlater
      · exact hordered
      · exact ih hlater

theorem total_size (h : Span a parts b) : a + Search.total (parts.map size) = b := by
  induction h with
  | nil a => rfl
  | cons hordered hrest ih =>
      rw [List.map_cons, Search.total_cons, size]
      omega

end Span

/-! ## Splitting -/

variable {range : NonceRange} {count step : Nat}

/-- The part with a number, where each part but the last is `step` wide. -/
def part (range : NonceRange) (count step i : Nat) : NonceRange where
  start := BitVec.ofNat 256 (range.start.toNat + step * i)
  last :=
    if i + 1 = count then range.last
    else BitVec.ofNat 256 (range.start.toNat + step * (i + 1) - 1)

theorem cut_le (hordered : range.start.toNat ≤ range.last.toNat)
    (hsteps : step * count ≤ range.width) {i : Nat} (hi : i ≤ count) :
    range.start.toNat + step * i ≤ range.last.toNat := by
  have hmul := Nat.mul_le_mul_left step hi
  unfold width at hsteps
  omega

/-- From each cut on, the parts follow one another up to the last nonce. -/
theorem span_from_cut (hordered : range.start.toNat ≤ range.last.toNat)
    (hsteps : step * count ≤ range.width) (hstep : 1 < count → 0 < step) {i more : Nat}
    (hcount : i + more + 1 = count) :
    Span (range.start.toNat + step * i)
      ((List.range' i (more + 1)).map (range.part count step)) (range.last.toNat + 1) := by
  have hlast := range.last.isLt
  -- from the last part back, since that one alone ends where the range does
  induction more generalizing i with
  | zero =>
      have hcut := cut_le hordered hsteps (i := i) (by omega)
      have hstart : (range.part count step i).start.toNat = range.start.toNat + step * i := by
        rw [part, BitVec.toNat_ofNat, Nat.mod_eq_of_lt (by omega)]
      have hend : (range.part count step i).last = range.last := if_pos hcount
      rw [← hstart, ← hend]
      refine .cons ?_ (.nil _)
      rw [hstart, hend]
      exact hcut
  | succ more ih =>
      have hcut := cut_le hordered hsteps (i := i + 1) (by omega)
      have hnext : step * (i + 1) = step * i + step := Nat.mul_succ step i
      have hwide := hstep (by omega)
      have hstart : (range.part count step i).start.toNat = range.start.toNat + step * i := by
        rw [part, BitVec.toNat_ofNat, Nat.mod_eq_of_lt (by omega)]
      have hend : (range.part count step i).last.toNat + 1 =
          range.start.toNat + step * (i + 1) := by
        rw [part, if_neg (by omega), BitVec.toNat_ofNat, Nat.mod_eq_of_lt (by omega)]
        omega
      rw [List.range'_succ, List.map_cons, ← hstart]
      refine .cons ?_ ?_
      · omega
      · rw [hend]
        exact ih (by omega)

/-- There is at least one part, and several parts have at least one step each. -/
theorem partCount_pos (range : NonceRange) (parts : Nat) : 0 < range.partCount parts := by
  unfold partCount
  dsimp only
  split <;> omega

theorem step_pos {parts : Nat} (h : 1 < range.partCount parts) :
    0 < range.width / range.partCount parts := by
  have hle : range.partCount parts ≤ range.width := by
    unfold partCount at h ⊢
    dsimp only at h ⊢
    split at h <;> split <;> omega
  exact Nat.div_pos hle (by omega)

theorem span_split (hordered : range.start.toNat ≤ range.last.toNat) (parts : Nat) :
    Span range.start.toNat (range.split parts) (range.last.toNat + 1) := by
  have hempty : range.isEmpty = false := by simpa [isEmpty] using hordered
  have hsteps := Nat.div_mul_le_self range.width (range.partCount parts)
  obtain ⟨more, hmore⟩ := Nat.exists_eq_succ_of_ne_zero (Nat.ne_of_gt (range.partCount_pos parts))
  have hcount : 0 + more + 1 = range.partCount parts := by omega
  have hspan := span_from_cut hordered hsteps step_pos hcount
  have hsplit : range.split parts = (List.range' 0 (more + 1)).map
      (range.part (range.partCount parts) (range.width / range.partCount parts)) := by
    rw [split, hempty, ← List.range_eq_range', ← Nat.succ_eq_add_one, ← hmore]
    rfl
  rw [hsplit]
  rwa [Nat.mul_zero, Nat.add_zero] at hspan

theorem split_of_not_ordered (hordered : ¬range.start.toNat ≤ range.last.toNat) (parts : Nat) :
    range.split parts = [] := by
  have hempty : range.isEmpty = true := by
    rw [isEmpty, decide_eq_true_iff]
    omega
  rw [split, hempty]
  rfl

theorem ordered_of_not_isEmpty (h : range.isEmpty = false) :
    range.start.toNat ≤ range.last.toNat := by
  simpa [isEmpty] using h

/-- A part has a nonce. -/
theorem not_isEmpty_of_mem_split {part : NonceRange} {parts : Nat} (hpart : part ∈ range.split parts) :
    part.isEmpty = false := by
  by_cases hordered : range.start.toNat ≤ range.last.toNat
  · have hpartOrdered := (span_split hordered parts).ordered hpart
    simpa [isEmpty] using hpartOrdered
  · rw [split_of_not_ordered hordered] at hpart
    nomatch hpart

/-- The parts hold the nonces of the range. -/
theorem exists_part_of_split_iff (range : NonceRange) (parts n : Nat) :
    (∃ part ∈ range.split parts, part.Holds n) ↔ range.Holds n := by
  by_cases hordered : range.start.toNat ≤ range.last.toNat
  · rw [(span_split hordered parts).exists_part_iff, Nat.lt_add_one_iff]
    rfl
  · have hnone : ¬range.Holds n := fun h => hordered (Nat.le_trans h.1 h.2)
    rw [split_of_not_ordered hordered]
    simp [hnone]

theorem total_size_split (range : NonceRange) (parts : Nat) :
    Search.total ((range.split parts).map size) = range.size := by
  by_cases hordered : range.start.toNat ≤ range.last.toNat
  · have htotal := (span_split hordered parts).total_size
    unfold size
    unfold size at htotal
    omega
  · rw [split_of_not_ordered hordered, size, Nat.sub_eq_zero_of_le (by omega)]
    rfl

end NonceRange

end BlockProduction

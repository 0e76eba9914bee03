import BlockProduction.Proofs.Mining.Partition
import Mathlib.Data.List.Chain
import Mathlib.Data.UInt

/-!
# Splitting in words

A range is split in 256-bit words.  With each operation checked, splitting never
fails: nothing overflows or falls below zero, and nothing is divided by zero,
whatever the ends of the range and the number of parts asked for.  The parts
stand in a row, so that each nonce of the range lies in exactly one of them.
-/

namespace BlockProduction

/-! ## Checked operations -/

namespace Word256

variable {a b c : Word256}

/-- A sum, or nothing when it does not fit. -/
def add? (a b : Word256) : Option Word256 :=
  if a.toNat + b.toNat < 2 ^ 256 then some (a + b) else none

/-- A difference, or nothing when it is below zero. -/
def sub? (a b : Word256) : Option Word256 :=
  if b.toNat ≤ a.toNat then some (a - b) else none

/-- A product, or nothing when it does not fit. -/
def mul? (a b : Word256) : Option Word256 :=
  if a.toNat * b.toNat < 2 ^ 256 then some (a * b) else none

/-- A quotient, or nothing for the divisor zero. -/
def div? (a b : Word256) : Option Word256 :=
  if b.toNat = 0 then none else some (a / b)

theorem add?_eq_some (h : c.toNat = a.toNat + b.toNat) : add? a b = some c := by
  have hlt := c.isLt
  rw [add?, if_pos (by omega), Option.some.injEq, ← BitVec.toNat_inj, BitVec.toNat_add]
  omega

theorem sub?_eq_some (h : c.toNat + b.toNat = a.toNat) : sub? a b = some c := by
  have hle : b.toNat ≤ a.toNat := by omega
  rw [sub?, if_pos hle, Option.some.injEq, ← BitVec.toNat_inj, BitVec.toNat_sub_of_le hle]
  omega

theorem mul?_eq_some (h : c.toNat = a.toNat * b.toNat) : mul? a b = some c := by
  have hlt := c.isLt
  have hfits : a.toNat * b.toNat < 2 ^ 256 := by omega
  rw [mul?, if_pos hfits, Option.some.injEq, ← BitVec.toNat_inj, BitVec.toNat_mul,
    Nat.mod_eq_of_lt hfits, h]

theorem div?_eq_some (hb : b.toNat ≠ 0) : div? a b = some (a / b) :=
  if_neg hb

end Word256

namespace NonceRange

variable {range : NonceRange}

/-! ## Rows of parts -/

instance (range : NonceRange) (n : Nat) : Decidable (range.Holds n) :=
  inferInstanceAs (Decidable (_ ∧ _))

/-- Parts that make up a range: they follow one another without a gap, and each nonce of the range
lies in exactly one of them. -/
structure Tiles (range : NonceRange) (most : Nat) (parts : List NonceRange) : Prop where
  ne_nil : parts ≠ []
  length_le : parts.length ≤ most
  ordered : ∀ part ∈ parts, part.start.toNat ≤ part.last.toNat
  head_start : parts.head?.map (·.start) = some range.start
  getLast_last : parts.getLast?.map (·.last) = some range.last
  next : parts.IsChain fun part next => next.start.toNat = part.last.toNat + 1
  once : ∀ n, parts.countP (fun part => part.Holds n) = if range.Holds n then 1 else 0

namespace Span

variable {a b : Nat} {parts : List NonceRange}

theorem eq_of_nil (h : Span a [] b) : a = b := by
  cases h
  rfl

theorem head_start (h : Span a parts b) {part : NonceRange} (hpart : parts.head? = some part) :
    part.start.toNat = a := by
  cases h with
  | nil => nomatch hpart
  | cons hordered hrest =>
      cases hpart
      rfl

theorem getLast_last (h : Span a parts b) {part : NonceRange} (hpart : parts.getLast? = some part) :
    part.last.toNat + 1 = b := by
  induction h with
  | nil => nomatch hpart
  | @cons first rest b hordered hrest ih =>
      cases rest with
      | nil =>
          cases hpart
          exact hrest.eq_of_nil
      | cons second rest => exact ih hpart

theorem isChain (h : Span a parts b) :
    parts.IsChain fun part next => next.start.toNat = part.last.toNat + 1 := by
  induction h with
  | nil => exact .nil
  | @cons first rest b hordered hrest ih =>
      cases rest with
      | nil => exact .singleton first
      | cons second rest => exact .cons_cons (hrest.head_start rfl) ih

/-- No two parts share a number. -/
theorem countP_holds (h : Span a parts b) (n : Nat) :
    parts.countP (fun part => part.Holds n) = if a ≤ n ∧ n < b then 1 else 0 := by
  induction h with
  | nil a => rw [List.countP_nil, if_neg (by omega)]
  | cons hordered hrest ih =>
      have hle := hrest.le
      rw [List.countP_cons, ih]
      simp only [decide_eq_true_eq]
      split_ifs <;> simp only [Holds] at * <;> omega

end Span

theorem length_split (hordered : range.start.toNat ≤ range.last.toNat) (parts : Nat) :
    (range.split parts).length = range.partCount parts := by
  have hempty : range.isEmpty = false := by simpa [isEmpty] using hordered
  rw [split, hempty]
  simp

theorem partCount_le (range : NonceRange) (parts : Nat) :
    range.partCount parts ≤ max parts 1 := by
  unfold partCount
  dsimp only
  split <;> omega

theorem tiles_split (hordered : range.start.toNat ≤ range.last.toNat) (parts : Nat) :
    range.Tiles (max parts 1) (range.split parts) := by
  have hspan := span_split hordered parts
  have hpos := range.partCount_pos parts
  have hlength := length_split hordered parts
  have hne : range.split parts ≠ [] := by
    apply List.ne_nil_of_length_pos
    omega
  constructor
  · exact hne
  · rw [hlength]
    exact range.partCount_le parts
  · exact fun part hpart => hspan.ordered hpart
  · have hhead := List.head?_eq_some_head hne
    rw [hhead, Option.map_some, Option.some.injEq, ← BitVec.toNat_inj]
    exact hspan.head_start hhead
  · have hlast := List.getLast?_eq_some_getLast hne
    rw [hlast, Option.map_some, Option.some.injEq, ← BitVec.toNat_inj]
    have hend := hspan.getLast_last hlast
    omega
  · exact hspan.isChain
  · intro n
    rw [hspan.countP_holds]
    exact if_congr (and_congr_right' Nat.lt_add_one_iff) rfl rfl

/-! ## Splitting -/

/-- Where the part with a number starts, in words. -/
def cut? (range : NonceRange) (step : Word256) (i : Nat) : Option Word256 := do
  Word256.add? range.start (← Word256.mul? step (BitVec.ofNat 256 i))

/-- The part with a number, in words. -/
def partWords? (range : NonceRange) (count : Nat) (step : Word256) (i : Nat) :
    Option NonceRange := do
  let start ← range.cut? step i
  if i + 1 = count then
    return ⟨start, range.last⟩
  else
    return ⟨start, ← Word256.sub? (← range.cut? step (i + 1)) 1⟩

/-- The number of parts for a width and a number of parts asked for, in words. -/
def countWord (width requested : Word256) : Word256 :=
  if width < requested then (if width < 1 then 1 else width) else requested

/-- Split a range in words, each operation checked.  The number of parts is a word of 64 bits. -/
def splitWords? (range : NonceRange) (parts : UInt64) : Option (List NonceRange) := do
  if range.last < range.start then
    return []
  else
    let width ← Word256.sub? range.last range.start
    let parts := countWord width (BitVec.ofNat 256 (max parts 1).toNat)
    let step ← Word256.div? width parts
    let count := parts.toNat % 2 ^ 64
    (List.range count).mapM (range.partWords? count step)

theorem mapM_eq_some_map {α β : Type} {f : α → Option β} {g : α → β} {as : List α}
    (h : ∀ a ∈ as, f a = some (g a)) : as.mapM f = some (as.map g) := by
  induction as with
  | nil => rfl
  | cons a as ih =>
      have hrest := ih fun x hx => h x (List.mem_cons_of_mem a hx)
      rw [List.mapM_cons, h a List.mem_cons_self, hrest]
      rfl

section Words

variable {count : Nat} {step : Word256} (hordered : range.start.toNat ≤ range.last.toNat)
  (hsteps : step.toNat * count ≤ range.width) (hcount : count < 2 ^ 64)
include hordered hsteps hcount

/-- No part starts above the last nonce. -/
theorem cut?_eq_some {i : Nat} (hi : i ≤ count) :
    range.cut? step i = some (BitVec.ofNat 256 (range.start.toNat + step.toNat * i)) := by
  have hlast := range.last.isLt
  have hbelow := cut_le hordered hsteps hi
  have hindex : (BitVec.ofNat 256 i).toNat = i := by
    rw [BitVec.toNat_ofNat, Nat.mod_eq_of_lt (by omega)]
  have hproduct : (BitVec.ofNat 256 (step.toNat * i)).toNat = step.toNat * i := by
    rw [BitVec.toNat_ofNat, Nat.mod_eq_of_lt (by omega)]
  have hmul : Word256.mul? step (BitVec.ofNat 256 i) =
      some (BitVec.ofNat 256 (step.toNat * i)) := by
    apply Word256.mul?_eq_some
    rw [hproduct, hindex]
  have hadd : Word256.add? range.start (BitVec.ofNat 256 (step.toNat * i)) =
      some (BitVec.ofNat 256 (range.start.toNat + step.toNat * i)) := by
    apply Word256.add?_eq_some
    rw [hproduct, BitVec.toNat_ofNat, Nat.mod_eq_of_lt (by omega)]
  rw [cut?, hmul]
  exact hadd

theorem partWords?_eq_some (hstep : 1 < count → 0 < step.toNat) {i : Nat} (hi : i < count) :
    range.partWords? count step i = some (range.part count step.toNat i) := by
  have hstart := cut?_eq_some hordered hsteps hcount (i := i) (by omega)
  rw [partWords?, hstart, part]
  by_cases hend : i + 1 = count
  · simp only [if_pos hend]
    rfl
  · have hnext := cut?_eq_some hordered hsteps hcount (i := i + 1) (by omega)
    have hsub : Word256.sub? (BitVec.ofNat 256 (range.start.toNat + step.toNat * (i + 1))) 1 =
        some (BitVec.ofNat 256 (range.start.toNat + step.toNat * (i + 1) - 1)) := by
      -- only the last part may have no step, so this one ends where the next one starts
      have hlast := range.last.isLt
      have hbelow := cut_le hordered hsteps (i := i + 1) (by omega)
      have hwide := hstep (by omega)
      have hmore : step.toNat * (i + 1) = step.toNat * i + step.toNat := Nat.mul_succ _ i
      have hone : BitVec.toNat (1 : Word256) = 1 := rfl
      apply Word256.sub?_eq_some
      rw [BitVec.toNat_ofNat, BitVec.toNat_ofNat, Nat.mod_eq_of_lt (by omega),
        Nat.mod_eq_of_lt (by omega), hone]
      omega
    simp only [if_neg hend, hnext]
    show (Word256.sub? _ 1).bind _ = _
    rw [hsub]
    rfl

end Words

theorem toNat_countWord {width : Word256} (hwidth : width.toNat = range.width) (parts : UInt64) :
    (countWord width (BitVec.ofNat 256 (max parts 1).toNat)).toNat =
      range.partCount parts.toNat := by
  have hparts := parts.toNat_lt
  have hone : BitVec.toNat (1 : Word256) = 1 := rfl
  have hrequested : (BitVec.ofNat 256 (max parts 1).toNat).toNat = max parts.toNat 1 := by
    rw [UInt64.toNat_max, UInt64.toNat_one, BitVec.toNat_ofNat, Nat.mod_eq_of_lt (by omega)]
  unfold countWord partCount
  simp only [BitVec.lt_def, hrequested, hwidth, hone]
  split
  · split <;> omega
  · exact hrequested

/-- In words nothing goes wrong, and the parts are those of the split. -/
theorem splitWords?_eq_some (range : NonceRange) (parts : UInt64) :
    range.splitWords? parts = some (range.split parts.toNat) := by
  by_cases hordered : range.start.toNat ≤ range.last.toNat
  · have hnot : ¬range.last < range.start := by
      rw [BitVec.lt_def]
      omega
    have hwidth : (range.last - range.start).toNat = range.width :=
      BitVec.toNat_sub_of_le hordered
    have hsub : Word256.sub? range.last range.start = some (range.last - range.start) :=
      if_pos hordered
    have hcount := toNat_countWord hwidth parts
    have hpos := range.partCount_pos parts.toNat
    have hle := range.partCount_le parts.toNat
    have hparts := parts.toNat_lt
    have hdiv := Word256.div?_eq_some (a := range.last - range.start)
      (b := countWord (range.last - range.start) (BitVec.ofNat 256 (max parts 1).toNat)) (by omega)
    have hstep : ((range.last - range.start) /
        countWord (range.last - range.start) (BitVec.ofNat 256 (max parts 1).toNat)).toNat =
        range.width / range.partCount parts.toNat := by
      rw [BitVec.toNat_udiv, hwidth, hcount]
    have hempty : range.isEmpty = false := by simpa [isEmpty] using hordered
    have hfits : range.partCount parts.toNat < 2 ^ 64 := by omega
    rw [splitWords?, if_neg hnot, hsub]
    show (Word256.div? _ _).bind _ = _
    rw [hdiv]
    show (List.range _).mapM _ = _
    rw [hcount, Nat.mod_eq_of_lt hfits, split, hempty]
    apply mapM_eq_some_map
    intro i hi
    have hpart := partWords?_eq_some hordered (by rw [hstep]; exact Nat.div_mul_le_self _ _) hfits
      (by rw [hstep]; exact step_pos) (List.mem_range.mp hi)
    rw [hstep] at hpart
    exact hpart
  · have hlt : range.last < range.start := by
      rw [BitVec.lt_def]
      omega
    rw [splitWords?, if_pos hlt, split_of_not_ordered hordered]
    rfl

/-- Splitting never leaves the words, the parts of a range with a nonce make it up, and a range
without one has no parts. -/
theorem split_tiles (range : NonceRange) (parts : UInt64) :
    range.splitWords? parts = some (range.split parts.toNat) ∧
      (range.start ≤ range.last → range.Tiles (max parts.toNat 1) (range.split parts.toNat)) ∧
      (range.last < range.start → range.split parts.toNat = []) := by
  refine ⟨splitWords?_eq_some range parts, ?_, ?_⟩
  · intro hordered
    exact tiles_split (BitVec.le_def.mp hordered) parts.toNat
  · intro hlt
    apply split_of_not_ordered
    rw [BitVec.lt_def] at hlt
    omega

/-- Fewer steps than parts asked for, up to the greatest word. -/
theorem split_tiles_end :
    let range : NonceRange := ⟨BitVec.allOnes 256 - 3, BitVec.allOnes 256⟩
    let reversed : NonceRange := ⟨range.last, range.start⟩
    range.splitWords? 8 = some (range.split 8) ∧
      (range.start ≤ range.last ∧ range.Tiles 8 (range.split 8)) ∧
      reversed.last < reversed.start ∧ reversed.split 8 = [] := by
  intro range reversed
  obtain ⟨hwords, htiles, -⟩ := split_tiles range 8
  obtain ⟨-, -, hnone⟩ := split_tiles reversed 8
  have hordered : range.start ≤ range.last := by decide
  have hlt : reversed.last < reversed.start := by decide
  exact ⟨hwords, ⟨hordered, htiles hordered⟩, hlt, hnone hlt⟩

end NonceRange

end BlockProduction

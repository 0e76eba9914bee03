/-!
# Machine words

Amounts, weights and counts are 64-bit words whose sums and differences stay
at the ends of the range instead of wrapping; targets and nonces are 256-bit
words.  The lemmas move both operations to natural numbers, where the ends of
the range are a minimum and a truncated subtraction.
-/

namespace BlockProduction

/-- Words of 256 bits: difficulty targets and nonces. -/
abbrev Word256 := BitVec 256

/-- A word below another has a next one. -/
theorem Word256.toNat_add_one {w last : Word256} (h : w.toNat < last.toNat) :
    (w + 1).toNat = w.toNat + 1 := by
  have hlast := last.isLt
  have hone : BitVec.toNat (1 : Word256) = 1 := rfl
  rw [BitVec.toNat_add, hone, Nat.mod_eq_of_lt (by omega)]

/-- The largest 64-bit word, as a number. -/
def maxWord : Nat := 0xffffffffffffffff

/-- The 64-bit word nearest to a number: the number itself, or the largest word. -/
def clampWord (n : Nat) : UInt64 :=
  UInt64.ofNat (min n maxWord)

@[simp] theorem clampWord_toNat (n : Nat) : (clampWord n).toNat = min n maxWord := by
  have hlt : min n maxWord < UInt64.size := by
    simp only [maxWord, UInt64.size]
    omega
  simpa [clampWord] using UInt64.toNat_ofNat_of_lt' hlt

/-- A sum that stays at the largest word. -/
def satAdd (a b : UInt64) : UInt64 :=
  clampWord (a.toNat + b.toNat)

@[simp] theorem satAdd_toNat (a b : UInt64) :
    (satAdd a b).toNat = min (a.toNat + b.toNat) maxWord := by
  simp [satAdd]

/-- A difference that stays at zero. -/
def satSub (a b : UInt64) : UInt64 :=
  clampWord (a.toNat - b.toNat)

@[simp] theorem satSub_toNat (a b : UInt64) :
    (satSub a b).toNat = a.toNat - b.toNat := by
  have hlt : a.toNat < 2 ^ 64 := a.toNat_lt
  simp only [satSub, clampWord_toNat, maxWord]
  omega

/-- A sum, or nothing when it does not fit into a word. -/
def addChecked (a b : UInt64) : Option UInt64 :=
  if a.toNat + b.toNat ≤ maxWord then some (a + b) else none

/-- A sum that is given is the exact one. -/
theorem addChecked_eq_some_iff {a b c : UInt64} :
    addChecked a b = some c ↔ c.toNat = a.toNat + b.toNat := by
  have hc : c.toNat < 2 ^ 64 := c.toNat_lt
  unfold addChecked
  split <;> rename_i h <;> simp only [maxWord] at h
  · rw [Option.some.injEq, ← UInt64.toNat_inj, UInt64.toNat_add]
    omega
  · simp only [reduceCtorEq, false_iff]
    omega

end BlockProduction

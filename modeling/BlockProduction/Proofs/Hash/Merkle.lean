import BlockProduction.Hash.Merkle
import BlockProduction.Proofs.Bytes

/-!
# The computation of merkle roots

A level stands above another if each of its hashes digests two neighbours, by
position; the last hash of an odd level is its own neighbour.  The root over a
list is what such levels end with.

Main statement: two lists of equal length with the same root are equal, or the
strings of 64 bytes that are digested at one place for the one and the other
root are different and have the same digest.
-/

namespace BlockProduction.Merkle

/-! ## Levels -/

/-- The hash at a position of the upper level digests the two below it. -/
def Above (upper lower : List Hash256) : Prop :=
  ∀ k : Nat, upper[k]? = lower[2 * k]?.map fun left => node left (lower[2 * k + 1]?.getD left)

/-- The hash that the levels above a list end with. -/
inductive RootOf : List Hash256 → Hash256 → Prop where
  | single (a : Hash256) : RootOf [a] a
  | level {lower upper : List Hash256} {r : Hash256} (hlength : 1 < lower.length)
      (habove : Above upper lower) (hroot : RootOf upper r) : RootOf lower r

theorem above_pairUp (hs : List Hash256) : Above (pairUp hs) hs := by
  fun_induction pairUp hs with
  | case1 =>
      intro k
      simp
  | case2 a =>
      intro k
      cases k with
      | zero => rfl
      | succ k => simp [Nat.mul_succ]
  | case3 a b rest ih =>
      intro k
      cases k with
      | zero => rfl
      | succ k => exact ih k

/-- There is one level above a level. -/
theorem Above.unique {upper upper' lower : List Hash256} (h : Above upper lower)
    (h' : Above upper' lower) : upper = upper' :=
  List.ext_getElem? fun k => (h k).trans (h' k).symm

theorem root_singleton (a : Hash256) : root [a] = a := by
  rw [root]

theorem root_of_lt {hs : List Hash256} (h : 1 < hs.length) : root hs = root (pairUp hs) := by
  match hs, h with
  | a :: b :: rest, _ => rw [root]

theorem rootOf_root {hs : List Hash256} (h : hs ≠ []) : RootOf hs (root hs) := by
  fun_induction root hs with
  | case1 => exact absurd rfl h
  | case2 a => exact .single a
  | case3 a b rest ih =>
      exact .level (by simp) (above_pairUp _) (ih (List.cons_ne_nil _ _))

theorem RootOf.root_eq {hs : List Hash256} {r : Hash256} (h : RootOf hs r) : root hs = r := by
  induction h with
  | single a => exact root_singleton a
  | level hlength habove _ ih =>
      rw [root_of_lt hlength, (above_pairUp _).unique habove]
      exact ih

theorem rootOf_iff {hs : List Hash256} {r : Hash256} (h : hs ≠ []) :
    RootOf hs r ↔ r = root hs := by
  constructor
  · intro hroot
    exact hroot.root_eq.symm
  · rintro rfl
    exact rootOf_root h

/-! ## Digested strings -/

/-- The strings that a level is digested from. -/
def blocks : List Hash256 → List Bytes
  | [] => []
  | [a] => [a.bytes ++ a.bytes]
  | a :: b :: rest => (a.bytes ++ b.bytes) :: blocks rest

/-- All strings that are digested for a root, level by level. -/
def digested : List Hash256 → List Bytes
  | [] => []
  | [_] => []
  | a :: b :: rest => blocks (a :: b :: rest) ++ digested (pairUp (a :: b :: rest))
termination_by hs => hs.length
decreasing_by
  simp only [pairUp_length, List.length_cons]
  omega

theorem pairUp_eq_map (hs : List Hash256) : pairUp hs = (blocks hs).map Sha256.hashTwice := by
  fun_induction pairUp hs with
  | case1 => rfl
  | case2 a => rfl
  | case3 a b rest ih =>
      rw [ih]
      rfl

theorem length_blocks (hs : List Hash256) : (blocks hs).length = (hs.length + 1) / 2 := by
  rw [← pairUp_length, pairUp_eq_map, List.length_map]

theorem length_of_mem_blocks {hs : List Hash256} {m : Bytes} (h : m ∈ blocks hs) :
    m.length = 64 := by
  have hpair : ∀ a b : Hash256, (a.bytes ++ b.bytes).length = 64 := by simp
  fun_induction blocks hs with
  | case1 => nomatch h
  | case2 a =>
      rw [List.mem_singleton.mp h]
      exact hpair a a
  | case3 a b rest ih =>
      rcases List.mem_cons.mp h with rfl | h
      · exact hpair a b
      · exact ih h

theorem length_of_mem_digested {hs : List Hash256} {m : Bytes} (h : m ∈ digested hs) :
    m.length = 64 := by
  fun_induction digested hs with
  | case1 => nomatch h
  | case2 => nomatch h
  | case3 a b rest ih =>
      rcases List.mem_append.mp h with h | h
      · exact length_of_mem_blocks h
      · exact ih h

/-- Two hashes are read off the string that they are digested from. -/
theorem bytes_append_inj {a b c d : Hash256} (h : a.bytes ++ b.bytes = c.bytes ++ d.bytes) :
    a = c ∧ b = d := by
  have hlength : a.bytes.length = c.bytes.length := by simp
  obtain ⟨hleft, hright⟩ := List.append_inj h hlength
  exact ⟨Hash256.bytes_inj.mp hleft, Hash256.bytes_inj.mp hright⟩

/-- The strings show the level, once its length tells a last hash beside itself from two equal
neighbours. -/
theorem eq_of_blocks_eq {as bs : List Hash256} (hlength : as.length = bs.length)
    (h : blocks as = blocks bs) : as = bs := by
  fun_induction blocks as generalizing bs with
  | case1 => exact (List.length_eq_zero_iff.mp hlength.symm).symm
  | case2 a =>
      obtain ⟨b, rfl⟩ := List.length_eq_one_iff.mp hlength.symm
      obtain ⟨rfl, -⟩ := bytes_append_inj (List.cons.inj h).1
      rfl
  | case3 a b rest ih =>
      match bs, hlength with
      | c :: d :: rest', hlength =>
          obtain ⟨hpair, hrest⟩ := List.cons.inj h
          obtain ⟨rfl, rfl⟩ := bytes_append_inj hpair
          have hlengths : rest.length = rest'.length := by simpa using hlength
          rw [ih hlengths hrest]

/-! ## Collisions -/

/-- Two different strings of 64 bytes with one digest, both digested at the same place for the roots
over two lists. -/
structure Collision (as bs : List Hash256) (x y : Bytes) : Prop where
  mem_zip : (x, y) ∈ (digested as).zip (digested bs)
  length_left : x.length = 64
  length_right : y.length = 64
  ne : x ≠ y
  hashTwice_eq : Sha256.hashTwice x = Sha256.hashTwice y

theorem collision_of_mem_zip {as bs : List Hash256} {x y : Bytes}
    (h : (x, y) ∈ (digested as).zip (digested bs)) (hne : x ≠ y)
    (heq : Sha256.hashTwice x = Sha256.hashTwice y) : Collision as bs x y :=
  ⟨h, length_of_mem_digested (List.of_mem_zip h).1, length_of_mem_digested (List.of_mem_zip h).2,
    hne, heq⟩

/-- Lists with the same images are equal, or different members at one place have the same image. -/
theorem eq_or_exists_of_map_eq {α β : Type} {f : α → β} {xs ys : List α}
    (h : xs.map f = ys.map f) : xs = ys ∨ ∃ x y, (x, y) ∈ xs.zip ys ∧ x ≠ y ∧ f x = f y := by
  induction xs generalizing ys with
  | nil => exact .inl (List.map_eq_nil_iff.mp h.symm).symm
  | cons x xs ih =>
      obtain ⟨y, ys, rfl, hhead, htail⟩ := List.map_eq_cons_iff.mp h.symm
      by_cases hxy : x = y
      · rcases ih htail.symm with hrest | ⟨x', y', hmem, hne, heq⟩
        · exact .inl (by rw [hxy, hrest])
        · exact .inr ⟨x', y', List.mem_cons_of_mem _ hmem, hne, heq⟩
      · exact .inr ⟨x, y, List.mem_cons_self, hxy, hhead.symm⟩

theorem digested_of_lt {hs : List Hash256} (h : 1 < hs.length) :
    digested hs = blocks hs ++ digested (pairUp hs) := by
  match hs, h with
  | a :: b :: rest, _ => rw [digested]

/-- What collides between two levels or above them collides for their lists. -/
theorem zip_digested {as bs : List Hash256} (hlength : as.length = bs.length)
    (h : 1 < as.length) : (digested as).zip (digested bs) =
      (blocks as).zip (blocks bs) ++ (digested (pairUp as)).zip (digested (pairUp bs)) := by
  have hblocks : (blocks as).length = (blocks bs).length := by
    rw [length_blocks, length_blocks, hlength]
  have hother : 1 < bs.length := hlength ▸ h
  rw [digested_of_lt h, digested_of_lt hother, List.zip_append hblocks]

/-- A root binds the list: the induction goes from level to level. -/
theorem eq_or_collision {as bs : List Hash256} (hlength : as.length = bs.length)
    (hroot : root as = root bs) : as = bs ∨ ∃ x y, Collision as bs x y := by
  fun_induction root as generalizing bs with
  | case1 => exact .inl (List.length_eq_zero_iff.mp hlength.symm).symm
  | case2 a =>
      obtain ⟨b, rfl⟩ := List.length_eq_one_iff.mp hlength.symm
      rw [root_singleton] at hroot
      exact .inl (by rw [hroot])
  | case3 a b rest ih =>
      generalize has : a :: b :: rest = as at *
      have hmany : 1 < as.length := by simp [← has]
      have hother : 1 < bs.length := hlength ▸ hmany
      have hzip := zip_digested hlength hmany
      rw [root_of_lt hother] at hroot
      have hlevels : (pairUp as).length = (pairUp bs).length := by
        rw [pairUp_length, pairUp_length, hlength]
      rcases ih hlevels hroot with hlevel | ⟨x, y, habove⟩
      · rw [pairUp_eq_map, pairUp_eq_map] at hlevel
        rcases eq_or_exists_of_map_eq hlevel with hblocks | ⟨x, y, hmem, hne, heq⟩
        · exact .inl (eq_of_blocks_eq hlength hblocks)
        · refine .inr ⟨x, y, collision_of_mem_zip ?_ hne heq⟩
          rw [hzip]
          exact List.mem_append_left _ hmem
      · refine .inr ⟨x, y, collision_of_mem_zip ?_ habove.ne habove.hashTwice_eq⟩
        rw [hzip]
        exact List.mem_append_right _ habove.mem_zip

end BlockProduction.Merkle

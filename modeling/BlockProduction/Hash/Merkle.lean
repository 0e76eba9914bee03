import BlockProduction.Hash.Sha256

/-!
# Merkle roots

A level of hashes is folded in pairs, the last hash of an odd level with
itself, until one hash is left.
-/

namespace BlockProduction.Merkle

/-- The parent of two hashes: the double digest of their bytes. -/
def node (left right : Hash256) : Hash256 :=
  Sha256.hashTwice (left.bytes ++ right.bytes)

/-- The level above: parents of neighbours, the last of an odd level with itself. -/
def pairUp : List Hash256 → List Hash256
  | [] => []
  | [a] => [node a a]
  | a :: b :: rest => node a b :: pairUp rest

theorem pairUp_length (hs : List Hash256) : (pairUp hs).length = (hs.length + 1) / 2 := by
  fun_induction pairUp hs with
  | case1 => rfl
  | case2 => simp
  | case3 a b rest ih =>
      simp only [List.length_cons, ih]
      omega

/-- The root over a list of hashes: one hash is its own root, none has root zero. -/
def root : List Hash256 → Hash256
  | [] => Hash256.zero
  | [a] => a
  | a :: b :: rest => root (pairUp (a :: b :: rest))
termination_by hs => hs.length
decreasing_by
  simp only [pairUp_length, List.length_cons]
  omega

end BlockProduction.Merkle

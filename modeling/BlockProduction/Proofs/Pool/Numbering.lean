import BlockProduction.Proofs.Pool.Views

/-!
# How candidates are numbered

The checks that are made in turn, of one candidate or of two, come to a strict
order of dependence: nobody depends on itself, not even by way of others.  The
graph of a view that has passed them numbers the candidates by their hashes, and
keeps every relation as the increasing list of those that the view lists.
-/

namespace BlockProduction

namespace PoolView

/-- One candidate lists another hash as an ancestor. -/
def DependsOn (view : PoolView) (d a : Hash256) : Prop :=
  d ∈ view.hashes ∧ a ∈ view.ancestorsOf d

/-- No chain of dependences leads back to where it starts. -/
def Acyclic (view : PoolView) : Prop :=
  ∀ h, ¬Relation.TransGen view.DependsOn h h

namespace Consistent

variable {view : PoolView} (h : view.Consistent)
include h

theorem dependsOn_trans {a b c : Hash256} (hcb : view.DependsOn c b) (hba : view.DependsOn b a) :
    view.DependsOn c a :=
  ⟨hcb.1, h.ancestors_trans hcb.1 hba.2 hcb.2⟩

theorem not_dependsOn_self (x : Hash256) : ¬view.DependsOn x x :=
  fun hself => (h.mem_ancestorsOf hself.1 hself.2).1 rfl

/-- A chain of dependences is one dependence already. -/
theorem acyclic : view.Acyclic := by
  have htrans : IsTrans Hash256 view.DependsOn := ⟨fun _ _ _ => h.dependsOn_trans⟩
  intro x hcycle
  rw [Relation.transGen_eq_self] at hcycle
  exact h.not_dependsOn_self x hcycle

end Consistent

end PoolView

namespace CandidateGraph

/-- The numbers follow the hashes, and the relations are those that the view lists, each number
once and in order. -/
structure Numbers (g : CandidateGraph) (view : PoolView) : Prop where
  candidates_perm : (g.ids.map g.tx).Perm view.candidates
  compare_hash : ∀ a b, compare (g.hash a) (g.hash b) = compare a b
  idOf?_eq_some_iff : ∀ {x id}, g.idOf? x = some id ↔ g.hash id = x
  ancestors_increasing : ∀ id, (g.ancestorsOf id).Pairwise (· < ·)
  mem_ancestorsOf_iff : ∀ {id x},
    x ∈ view.ancestorsOf (g.hash id) ↔ ∃ a ∈ g.ancestorsOf id, g.hash a = x
  descendants_increasing : ∀ id, (g.descendantsOf id).Pairwise (· < ·)
  mem_descendantsOf_iff : ∀ {id x},
    x ∈ view.descendantsOf (g.hash id) ↔ ∃ d ∈ g.descendantsOf id, g.hash d = x

/-- Hashes compare as numbers do. -/
theorem Consistent.compare_hash {g : CandidateGraph} (hg : g.Consistent) (a b : Fin g.size) :
    compare (g.hash a) (g.hash b) = compare a b := by
  show compare (g.hash a).value.toNat (g.hash b).value.toNat = compare a b
  rcases lt_trichotomy a b with hlt | rfl | hgt
  · rw [Nat.compare_eq_lt.mpr (hg.hash_lt hlt), compare_lt_iff_lt.mpr hlt]
  · simp
  · rw [Nat.compare_eq_gt.mpr (hg.hash_lt hgt), compare_gt_iff_gt.mpr hgt]

theorem numbers_of_ofView {view : PoolView} {g : CandidateGraph} (h : ofView view = .ok g) :
    g.Numbers view := by
  have hg := consistent_of_ofView h
  have hrepresents := represents_of_ofView h
  refine ⟨hrepresents.candidates_perm, hg.compare_hash, ?_, hg.ancestors_increasing,
    hrepresents.mem_ancestorsOf_iff, hg.descendants_increasing,
    hrepresents.mem_descendantsOf_iff⟩
  intro x id
  constructor
  · exact hash_of_idOf?
  · rintro rfl
    exact hg.idOf?_hash id

end CandidateGraph

/-- A graph is built from consistent views and from no others. -/
theorem PoolView.accepted_exactly (view : PoolView) :
    ((∃ g, CandidateGraph.ofView view = .ok g) ↔ view.Consistent) ∧
    (view.Consistent → view.Acyclic) ∧
    ∀ g, CandidateGraph.ofView view = .ok g → g.Numbers view :=
  ⟨accepted_iff_consistent, Consistent.acyclic, fun _ => CandidateGraph.numbers_of_ofView⟩

theorem PoolView.accepted_exactly_familyPool :
    familyPool.Consistent ∧ familyPool.Acyclic ∧
    ∃ g, CandidateGraph.ofView familyPool = .ok g ∧ g.Numbers familyPool := by
  obtain ⟨haccepted, hacyclic, hnumbers⟩ := accepted_exactly familyPool
  obtain ⟨g, hg⟩ := familyPool_accepted
  have hconsistent : familyPool.Consistent := haccepted.mp ⟨g, hg⟩
  exact ⟨hconsistent, hacyclic hconsistent, g, hg, hnumbers g hg⟩

end BlockProduction

import BlockProduction.Proofs.Pool.Parts
import BlockProduction.Proofs.Selection.Outcome

/-!
# Rounds over parts

The rules of a round say the same about a candidate at its place in the whole
graph and about the candidate in a part of it: what remains of its package, what
the package and the block sum up to, which package leads, and whether the gate
lets the candidate through.
-/

namespace BlockProduction

namespace CandidateGraph.Part

variable {g part : CandidateGraph} (p : g.Part part)

theorem total_place (f : Figure) (ids : List (Fin part.size)) :
    g.total f (ids.map p.place) = part.total f ids := by
  simp only [total, List.map_map, Function.comp_def, p.tx_place]

theorem filter_ancestors_place (block : List (Fin part.size)) (i : Fin part.size) :
    (g.ancestorsOf (p.place i)).filter (fun a => a ∉ block.map p.place) =
      ((part.ancestorsOf i).filter fun a => a ∉ block).map p.place := by
  rw [p.ancestorsOf_place, List.filter_map]
  simp only [Function.comp_def, p.place_mem_map_iff]

theorem remaining_place (block : List (Fin part.size)) (i : Fin part.size) :
    g.remaining (block.map p.place) (p.place i) = (part.remaining block i).map p.place := by
  have hmembers : (g.ancestorsOf (p.place i)).filter (fun a => a ∉ block.map p.place) ++
      [p.place i] = ((part.ancestorsOf i).filter (fun a => a ∉ block) ++ [i]).map p.place := by
    rw [p.filter_ancestors_place, List.map_append, List.map_singleton]
  rw [remaining, hmembers, remaining]
  exact (List.map_mergeSort fun a _ b _ => (p.depthLe_place a b).symm).symm

theorem fullPackage_place (i : Fin part.size) :
    g.fullPackage (p.place i) = part.fullPackage i := by
  simp only [fullPackage, p.ancestorsOf_place, List.foldl_map, p.tx_place]

theorem reduced_place (block : List (Fin part.size)) (i : Fin part.size) :
    g.reduced (block.map p.place) (p.place i) = part.reduced block i := by
  simp only [reduced, List.filter_map, Function.comp_def, p.place_mem_ancestorsOf_iff,
    List.foldl_map, p.tx_place, p.fullPackage_place]

theorem leads_place (block : List (Fin part.size)) (i j : Fin part.size) :
    g.leads (g.reduced (block.map p.place)) (p.place i) (p.place j) =
      part.leads (part.reduced block) i j := by
  simp only [leads, p.reduced_place, p.hash_place]

end CandidateGraph.Part

namespace RoundSetting

/-- Two rounds under the same rules, the second over a part of the candidates of the first. -/
structure Part (s s' : RoundSetting) extends CandidateGraph.Part s.graph s'.graph where
  selector_eq : s'.selector = s.selector
  confirmations_eq : s'.confirmations = s.confirmations
  context_eq : s'.context = s.context

variable {s s' : RoundSetting}

theorem mapM_confirmation? {inputs : List TxInput}
    (h : ∀ input ∈ inputs, s.confirmation? input = s'.confirmation? input) :
    inputs.mapM s.confirmation? = inputs.mapM s'.confirmation? := by
  induction inputs with
  | nil => rfl
  | cons input rest ih =>
      rw [List.mapM_cons, List.mapM_cons, h input (.head _),
        ih fun other hother => h other (.tail _ hother)]

namespace Part

variable (p : Part s s')
include p

def trans {s'' : RoundSetting} (q : Part s' s'') : Part s s'' where
  toPart := p.toPart.trans q.toPart
  selector_eq := q.selector_eq.trans p.selector_eq
  confirmations_eq := q.confirmations_eq.trans p.confirmations_eq
  context_eq := q.context_eq.trans p.context_eq

theorem usageOf_place (block : List (Fin s'.graph.size)) :
    s.usageOf (block.map p.place) = s'.usageOf block := by
  simp only [usageOf, p.total_place, p.selector_eq]

theorem draftOf_place (block : List (Fin s'.graph.size)) :
    s.draftOf (block.map p.place) = s'.draftOf block := by
  simp only [draftOf, List.map_map, Function.comp_def, p.tx_place, p.usageOf_place, p.context_eq,
    p.selector_eq]

theorem check_place (block : List (Fin s'.graph.size)) (i : Fin s'.graph.size) :
    s.selector.limits.check (s.usageOf (block.map p.place))
        (s.graph.reduced (block.map p.place) (p.place i)) =
      s'.selector.limits.check (s'.usageOf block) (s'.graph.reduced block i) := by
  rw [p.usageOf_place, p.reduced_place, p.selector_eq]

/-- Whoever spends a candidate depends on it, so that it stands in the part with it. -/
theorem isSome_idOf?_place (hg : s.graph.Consistent) {i : Fin s'.graph.size} {input : TxInput}
    (hinput : input ∈ (s'.graph.tx i).inputs) :
    (s.graph.idOf? input.prevout.hash).isSome = (s'.graph.idOf? input.prevout.hash).isSome := by
  rw [← p.tx_place] at hinput
  apply Bool.eq_iff_iff.mpr
  constructor
  · intro hknown
    obtain ⟨parent, hparent⟩ := Option.isSome_iff_exists.mp hknown
    obtain ⟨j, -, rfl⟩ := p.exists_place_of_ancestor (hg.spent_mem_ancestors hinput hparent)
    have hhash := CandidateGraph.hash_of_idOf? hparent
    rw [p.hash_place] at hhash
    exact CandidateGraph.idOf?_isSome_iff.mpr ⟨j, hhash⟩
  · intro hknown
    obtain ⟨j, hhash⟩ := CandidateGraph.idOf?_isSome_iff.mp hknown
    exact CandidateGraph.idOf?_isSome_iff.mpr ⟨p.place j, (p.hash_place j).trans hhash⟩

theorem confirmation?_place (hg : s.graph.Consistent) {i : Fin s'.graph.size} {input : TxInput}
    (hinput : input ∈ (s'.graph.tx i).inputs) : s.confirmation? input = s'.confirmation? input := by
  simp only [confirmation?, p.isSome_idOf?_place hg hinput, p.context_eq, p.confirmations_eq]

theorem gate?_place (hg : s.graph.Consistent) (i : Fin s'.graph.size) :
    s.gate? (s.graph.tx (p.place i)) = s'.gate? (s'.graph.tx i) := by
  have hinputs := mapM_confirmation? fun input hinput => p.confirmation?_place (i := i) hg hinput
  rw [p.tx_place]
  simp only [gate?, hinputs, p.selector_eq, p.context_eq]

theorem refusal?_place (hg : s.graph.Consistent) (i : Fin s'.graph.size) :
    s.refusal? (p.place i) =
      (s'.refusal? i).map fun refusal => (p.place refusal.1, refusal.2) := by
  simp only [refusal?, p.gate?_place hg, Option.map_map, Function.comp_def]

/-- In a package, the same member is refused first, for the same reason. -/
theorem findSome?_refusal?_place (hg : s.graph.Consistent) (members : List (Fin s'.graph.size)) :
    (members.map p.place).findSome? s.refusal? =
      (members.findSome? s'.refusal?).map fun refusal => (p.place refusal.1, refusal.2) := by
  induction members with
  | nil => rfl
  | cons i rest ih =>
      rw [List.map_cons, List.findSome?_cons, List.findSome?_cons, p.refusal?_place hg]
      cases s'.refusal? i with
      | some refusal => rfl
      | none => exact ih

end Part

end RoundSetting

end BlockProduction

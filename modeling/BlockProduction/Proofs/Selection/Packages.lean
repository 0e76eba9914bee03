import BlockProduction.Proofs.Pool.Views
import BlockProduction.Proofs.Selection.Validity

/-!
# Exact sums and paid packages

The sums of blocks and packages stay at the ends of their words.  Under limits
below the largest word this never shows in a block: a package whose weight was
cut off does not fit.  So the sums of a block are those of its transactions, and
the block is a sequence of packages each of which pays for its exact weight.
-/

namespace BlockProduction

/-- The sums of a block are those of its transactions and the reservation, and keep the limits. -/
structure Draft.Exact (draft : Draft) (reservation : Reservation) (limits : Limits) : Prop where
  weight_eq : draft.usage.weight.toNat =
    reservation.weight.toNat + (draft.transactions.map fun tx => tx.weight.toNat).sum
  sigopCost_eq : draft.usage.sigopCost.toNat =
    reservation.sigopCost.toNat + (draft.transactions.map fun tx => tx.sigopCost.toNat).sum
  weight_le : draft.usage.weight ≤ limits.maxWeight
  sigopCost_le : draft.usage.sigopCost ≤ limits.maxSigopCost

namespace PoolView

/-- The number of candidates that a candidate depends on. -/
def ancestorCount (view : PoolView) (h : Hash256) : Nat :=
  (view.ancestorsOf h).dedup.length

/-- Fewer ancestors come first, then the lower hash. -/
def Shallower (view : PoolView) (a b : Candidate) : Prop :=
  view.ancestorCount a.hash < view.ancestorCount b.hash ∨
    view.ancestorCount a.hash = view.ancestorCount b.hash ∧ a.hash.value.toNat < b.hash.value.toNat

/-- The `members` are the ancestors of a head that do not stand in the block, in order, and
together with the head they pay for their weight. -/
structure PaidPackage (view : PoolView) (rate : FeeRate) (block members : List Candidate)
    (head : Candidate) : Prop where
  mem_iff : ∀ h, h ∈ members.map (·.hash) ↔
    h ∈ view.ancestorsOf head.hash ∧ h ∉ block.map (·.hash)
  sorted : members.Pairwise view.Shallower
  pays : ∃ weight : UInt64,
    weight.toNat = ((members ++ [head]).map fun tx => tx.weight.toNat).sum ∧
      (rate.feeFor weight).toNat ≤ ((members ++ [head]).map fun tx => tx.fee.toNat).sum

/-- Blocks that are put together from paid packages, one behind the other. -/
inductive PaidBlock (view : PoolView) (rate : FeeRate) : List Candidate → Prop
  | nil : PaidBlock view rate []
  | append {block members : List Candidate} {head : Candidate} (hblock : PaidBlock view rate block)
      (hpackage : PaidPackage view rate block members head) :
      PaidBlock view rate (block ++ (members ++ [head]))

end PoolView

/-! ## The order of a package -/

namespace CandidateGraph

variable {g : CandidateGraph} {view : PoolView} {block : List (Fin g.size)} {id : Fin g.size}

theorem depthLe_antisymm (hg : g.Consistent) {a b : Fin g.size} (hab : g.depthLe a b = true)
    (hba : g.depthLe b a = true) : a = b := by
  rw [depthLe_iff] at hab hba
  have hhash : g.hash a = g.hash b := by
    apply Hash256.le_antisymm
    · apply Hash256.le_iff.mpr
      omega
    · apply Hash256.le_iff.mpr
      omega
  exact hg.hash_inj hhash

/-- The head has more ancestors than any of them, so it stands last. -/
theorem remaining_eq (hg : g.Consistent) (block : List (Fin g.size)) (id : Fin g.size) :
    g.remaining block id =
      ((g.ancestorsOf id).filter fun a => a ∉ block).mergeSort g.depthLe ++ [id] := by
  have hlast : (((g.ancestorsOf id).filter fun a => a ∉ block).mergeSort g.depthLe ++
      [id]).Pairwise fun a b => g.depthLe a b = true := by
    apply List.pairwise_append.mpr
    refine ⟨List.pairwise_mergeSort depthLe_trans depthLe_total _, List.pairwise_singleton _ _, ?_⟩
    intro a ha b hb
    rw [List.mem_singleton.mp hb]
    have hancestor : a ∈ g.ancestorsOf id := (List.mem_filter.mp (List.mem_mergeSort.mp ha)).1
    have hless := hg.ancestors_length_lt hancestor
    exact depthLe_iff.mpr (.inl hless)
  have hperm : (g.remaining block id).Perm
      (((g.ancestorsOf id).filter fun a => a ∉ block).mergeSort g.depthLe ++ [id]) := by
    apply (List.mergeSort_perm _ _).trans
    exact (List.mergeSort_perm _ _).symm.append_right [id]
  apply List.Perm.eq_of_pairwise _ _ hlast hperm
  · intro a b _ _ hab hba
    exact depthLe_antisymm hg hab hba
  · exact List.pairwise_mergeSort depthLe_trans depthLe_total _

theorem Represents.ancestorCount_eq (hg : g.Consistent) (h : g.Represents view) (id : Fin g.size) :
    view.ancestorCount (g.hash id) = (g.ancestorsOf id).length := by
  have hperm : (view.ancestorsOf (g.hash id)).dedup.Perm ((g.ancestorsOf id).map g.hash) := by
    apply (List.perm_ext_iff_of_nodup (List.nodup_dedup _)
      (hg.nodup_map_hash (hg.ancestors_nodup id))).mpr
    intro x
    rw [List.mem_dedup, h.mem_ancestorsOf_iff, List.mem_map]
  have hlength := hperm.length_eq
  rwa [List.length_map] at hlength

theorem Represents.shallower (hg : g.Consistent) (h : g.Represents view) {ids : List (Fin g.size)}
    (hnodup : ids.Nodup) : ((ids.mergeSort g.depthLe).map g.tx).Pairwise view.Shallower := by
  have hsorted := List.pairwise_mergeSort depthLe_trans depthLe_total ids
  have hdistinct : (ids.mergeSort g.depthLe).Nodup :=
    (List.mergeSort_perm ids g.depthLe).nodup_iff.mpr hnodup
  rw [List.pairwise_map]
  apply (hsorted.and hdistinct).imp
  intro a b hab
  obtain ⟨hle, hne⟩ := hab
  have hback : g.depthLe b a ≠ true := fun hba => hne (depthLe_antisymm hg hle hba)
  rw [ne_eq, depthLe_iff] at hback
  rw [depthLe_iff] at hle
  show view.ancestorCount (g.hash a) < view.ancestorCount (g.hash b) ∨
    view.ancestorCount (g.hash a) = view.ancestorCount (g.hash b) ∧
      (g.hash a).value.toNat < (g.hash b).value.toNat
  rw [h.ancestorCount_eq hg, h.ancestorCount_eq hg]
  omega

/-- What is left of a package is what its members outside the block sum up to, or less. -/
theorem toNat_reduced_le (hg : g.Consistent) (hnodup : block.Nodup) (f : Figure)
    (id : Fin g.size) :
    (f.ofPackage (g.reduced block id)).toNat ≤ g.total f (g.remaining block id) := by
  have hreduced := toNat_reduced hg hnodup f id
  have hparts := total_remaining_add f block id
  omega

end CandidateGraph

namespace RoundSetting

variable {s : RoundSetting} {view : PoolView} {block : List (Fin s.graph.size)}
  {l : Ledger s.graph.size} {head : Fin s.graph.size}

/-! ## Exact sums -/

theorem toNat_usageOf_of_lt (f : Figure) (h : (f.ofUsage (s.usageOf block)).toNat < maxWord) :
    (f.ofUsage (s.usageOf block)).toNat =
      (f.reserved s.selector.reservation).toNat + s.graph.total f block := by
  have husage := toNat_usageOf f block
  omega

theorem exact_draftOf (hweight : s.selector.limits.maxWeight.toNat < maxWord)
    (hsigops : s.selector.limits.maxSigopCost.toNat < maxWord) (h : s.WithinLimits block) :
    (s.draftOf block).Exact s.selector.reservation s.selector.limits := by
  have hle := UInt64.le_iff_toNat_le.mp h.1
  have hle' := UInt64.le_iff_toNat_le.mp h.2
  have hsum : (s.usageOf block).weight.toNat = _ :=
    toNat_usageOf_of_lt .weight (Nat.lt_of_le_of_lt hle hweight)
  have hsum' : (s.usageOf block).sigopCost.toNat = _ :=
    toNat_usageOf_of_lt .sigopCost (Nat.lt_of_le_of_lt hle' hsigops)
  refine ⟨?_, ?_, h.1, h.2⟩
  · rw [draftOf, List.map_map]
    exact hsum
  · rw [draftOf, List.map_map]
    exact hsum'

/-! ## Paid packages -/

/-- A package fits only with its exact weight: a sum that was cut off would still be larger than
what the block leaves. -/
theorem toNat_weight_of_fits (hg : s.graph.Consistent)
    (hmax : s.selector.limits.maxWeight.toNat < maxWord) (hnodup : block.Nodup)
    (hcheck : s.selector.limits.check (s.usageOf block) (s.graph.reduced block head) = .fits) :
    (s.graph.reduced block head).weight.toNat =
      s.graph.total .weight (s.graph.remaining block head) := by
  have hfits := UInt64.le_iff_toNat_le.mp (Limits.commit_le_of_check hcheck).1
  have hcommit : ((s.usageOf block).commit (s.graph.reduced block head)).weight.toNat =
      min ((s.usageOf block).weight.toNat + (s.graph.reduced block head).weight.toNat) maxWord :=
    satAdd_toNat _ _
  have husage := toNat_usageOf .weight block
  have hreduced := CandidateGraph.toNat_reduced hg hnodup .weight head
  have hparts := CandidateGraph.total_remaining_add .weight block head
  have hshared := CandidateGraph.total_shared_le hg hnodup .weight head
  simp only [Figure.ofUsage, Figure.ofPackage] at husage hreduced
  omega

theorem paidPackage_of_fits (hg : s.graph.Consistent) (hrepresents : s.graph.Represents view)
    (hmax : s.selector.limits.maxWeight.toNat < maxWord) (hnodup : block.Nodup)
    (hcheck : s.selector.limits.check (s.usageOf block) (s.graph.reduced block head) = .fits) :
    view.PaidPackage s.selector.limits.minFeeRate (block.map s.graph.tx)
      ((((s.graph.ancestorsOf head).filter fun a => a ∉ block).mergeSort s.graph.depthLe).map
        s.graph.tx) (s.graph.tx head) := by
  have hmembers := CandidateGraph.remaining_eq hg block head
  have hweight := toNat_weight_of_fits hg hmax hnodup hcheck
  have hpays := UInt64.le_iff_toNat_le.mp (Limits.feeFor_le_of_check hcheck)
  have hfee := CandidateGraph.toNat_reduced_le hg hnodup .fee head
  rw [hmembers] at hweight hfee
  refine ⟨?_, ?_, (s.graph.reduced block head).weight, ?_, ?_⟩
  · intro h
    have hin : ∀ a, s.graph.hash a ∈ (block.map s.graph.tx).map (·.hash) ↔ a ∈ block := by
      intro a
      rw [List.map_map]
      exact List.mem_map_of_injective fun a b => hg.hash_inj
    show _ ↔ h ∈ view.ancestorsOf (s.graph.hash head) ∧ _
    rw [hrepresents.mem_ancestorsOf_iff, List.map_map, List.mem_map]
    constructor
    · rintro ⟨a, ha, rfl⟩
      obtain ⟨hancestor, hout⟩ := List.mem_filter.mp (List.mem_mergeSort.mp ha)
      exact ⟨⟨a, hancestor, rfl⟩, fun hblock => of_decide_eq_true hout ((hin a).mp hblock)⟩
    · rintro ⟨⟨a, hancestor, rfl⟩, hout⟩
      refine ⟨a, List.mem_mergeSort.mpr (List.mem_filter.mpr ⟨hancestor, ?_⟩), rfl⟩
      exact decide_eq_true fun hblock => hout ((hin a).mpr hblock)
  · exact hrepresents.shallower hg ((hg.ancestors_nodup head).filter _)
  · rw [← List.map_singleton, ← List.map_append, List.map_map]
    exact hweight
  · rw [← List.map_singleton, ← List.map_append, List.map_map]
    exact hpays.trans hfee

theorem paidBlock_step (hg : s.graph.Consistent) (hrepresents : s.graph.Represents view)
    (hmax : s.selector.limits.maxWeight.toNat < maxWord) (hl : Settled l)
    (h : view.PaidBlock s.selector.limits.minFeeRate (l.block.map s.graph.tx))
    {l' : Ledger s.graph.size} (hd : Decides s s.graph.reduced (l.consider head) head l') :
    view.PaidBlock s.selector.limits.minFeeRate (l'.block.map s.graph.tx) := by
  rcases hd.block_cases with hsame | ⟨hblock, hcheck, -⟩
  · rw [hsame]
    exact h
  · rw [Ledger.block_consider] at hblock hcheck
    rw [hblock, CandidateGraph.remaining_eq hg, List.map_append, List.map_append]
    exact .append h (paidPackage_of_fits hg hrepresents hmax hl.lawful.block_nodup hcheck)

theorem paidBlock_outcome (hg : s.graph.Consistent) (hrepresents : s.graph.Represents view)
    (hmax : s.selector.limits.maxWeight.toNat < maxWord) :
    view.PaidBlock s.selector.limits.minFeeRate (s.outcome.1.block.map s.graph.tx) :=
  outcome_preserves
    (P := fun l => view.PaidBlock s.selector.limits.minFeeRate (l.block.map s.graph.tx)) hg
    (fun hl hpaid _ hd => paidBlock_step hg hrepresents hmax hl hpaid hd) .nil

end RoundSetting

/-! ## Rounds over views -/

namespace Config

variable {config : Config}

theorem Valid.maxWeight_lt (h : config.Valid) : config.limits.maxWeight.toNat < maxWord := by
  have hle := UInt64.le_iff_toNat_le.mp h.weight_le
  have hmax : BlockProduction.maxBlockWeight.toNat < maxWord := by decide
  exact Nat.lt_of_le_of_lt hle hmax

theorem Valid.maxSigopCost_lt (h : config.Valid) :
    config.limits.maxSigopCost.toNat < maxWord := by
  have hle := UInt64.le_iff_toNat_le.mp h.sigops_le
  have hmax : maxBlockSigopCost.toNat < maxWord := by decide
  exact Nat.lt_of_le_of_lt hle hmax

/-- Whatever the weights and costs of the candidates are, the sums of the block are exact. -/
theorem select_exact {view : PoolView} (hconfig : config.validate = .ok ())
    (hview : view.Accepted) (confirmations : Confirmations) (context : RoundContext) :
    ∃ report, config.toSelector.select view confirmations context = .ok report ∧
      report.draft.Exact
        ⟨config.selector.coinbaseReservedWeight, config.selector.coinbaseReservedSigops⟩
        config.limits := by
  have hvalid := Config.validate_eq_ok_iff.mp hconfig
  obtain ⟨graph, hgraph⟩ := hview
  let s : RoundSetting := { selector := config.toSelector, graph, confirmations, context }
  have hg := CandidateGraph.consistent_of_ofView hgraph
  have hstart : s.WithinLimits [] := by
    rw [RoundSetting.WithinLimits, RoundSetting.usageOf_nil]
    exact ⟨UInt64.le_of_lt hvalid.reserved_weight_lt, UInt64.le_of_lt hvalid.reserved_sigops_lt⟩
  have hwithin := RoundSetting.withinLimits_outcome hg hstart
  refine ⟨_, s.select_eq_outcome hgraph (hvalid.weightsFit rfl), ?_⟩
  exact RoundSetting.exact_draftOf hvalid.maxWeight_lt hvalid.maxSigopCost_lt hwithin

theorem select_exact_familyPool :
    (Config.usual 1).validate = .ok () ∧ familyPool.Accepted ∧
    ∃ report, (Config.usual 1).toSelector.select familyPool familyFunds default = .ok report ∧
      report.draft.hashes = [⟨1⟩, ⟨2⟩] ∧
      report.draft.Exact ⟨4000, 400⟩ (Config.usual 1).limits :=
  ⟨rfl, familyPool_accepted,
    select_familyPool (Config.select_exact rfl familyPool_accepted _ _)⟩

/-- The block of every round is a sequence of packages, each with what its head still needs and
with the fee that the least fee rate asks for its weight. -/
theorem select_paid {view : PoolView} (hconfig : config.validate = .ok ())
    (hview : view.Accepted) (confirmations : Confirmations) (context : RoundContext) :
    ∃ report, config.toSelector.select view confirmations context = .ok report ∧
      view.PaidBlock ⟨config.selector.blockMinFeeRate⟩ report.draft.transactions := by
  have hvalid := Config.validate_eq_ok_iff.mp hconfig
  obtain ⟨graph, hgraph⟩ := hview
  let s : RoundSetting := { selector := config.toSelector, graph, confirmations, context }
  have hg := CandidateGraph.consistent_of_ofView hgraph
  have hrepresents := CandidateGraph.represents_of_ofView hgraph
  refine ⟨_, s.select_eq_outcome hgraph (hvalid.weightsFit rfl), ?_⟩
  exact RoundSetting.paidBlock_outcome (s := s) hg hrepresents hvalid.maxWeight_lt

theorem select_paid_familyPool :
    (Config.usual 1).validate = .ok () ∧ familyPool.Accepted ∧
    ∃ report, (Config.usual 1).toSelector.select familyPool familyFunds default = .ok report ∧
      report.draft.hashes = [⟨1⟩, ⟨2⟩] ∧ familyPool.PaidBlock ⟨1000⟩ report.draft.transactions :=
  ⟨rfl, familyPool_accepted,
    select_familyPool (Config.select_paid rfl familyPool_accepted _ _)⟩

end Config

end BlockProduction

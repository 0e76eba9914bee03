import BlockProduction.Proofs.Selection.Ledger

/-!
# Sums of remaining packages

What taking block members out of a full package leaves, in exact sums.  When the
sums over all candidates fit into words, this is what the remaining members sum
up to.  When they do not, the sums of the block stay what they should be all the
same, and a remaining package never loses all its weight before the block itself
has grown to the largest word.
-/

namespace BlockProduction

namespace CandidateGraph

variable {g : CandidateGraph} {block : List (Fin g.size)} {id : Fin g.size}

/-- Taking block members out of packages leaves them their weight. -/
def Measured (g : CandidateGraph) (block : List (Fin g.size)) : Prop :=
  g.total .weight block < maxWord ∨ g.total .weight g.ids ≤ maxWord

theorem Measured.append_left {members : List (Fin g.size)} (h : g.Measured (block ++ members)) :
    g.Measured block := by
  refine h.imp_left fun h => ?_
  rw [total_append] at h
  omega

/-! ## One package -/

theorem reduced_append_singleton (block : List (Fin g.size)) (m id : Fin g.size) :
    g.reduced (block ++ [m]) id =
      if m ∈ g.ancestorsOf id then (g.reduced block id).remove (g.tx m) else g.reduced block id := by
  unfold reduced
  rw [List.filter_append, List.foldl_append]
  by_cases hm : m ∈ g.ancestorsOf id
  · simp [hm]
  · simp [hm]

/-- The ancestors in the block, found in the block or in the list of ancestors. -/
theorem shared_perm (hg : g.Consistent) (hnodup : block.Nodup) (id : Fin g.size) :
    (block.filter fun a => a ∈ g.ancestorsOf id).Perm
      ((g.ancestorsOf id).filter fun a => a ∈ block) := by
  refine (List.perm_ext_iff_of_nodup (hnodup.filter _)
    ((hg.ancestors_nodup id).filter _)).mpr fun a => ?_
  simp [and_comm]

theorem total_shared (hg : g.Consistent) (hnodup : block.Nodup) (f : Figure) (id : Fin g.size) :
    g.total f (block.filter fun a => a ∈ g.ancestorsOf id) =
      g.total f ((g.ancestorsOf id).filter fun a => a ∈ block) :=
  total_perm (shared_perm hg hnodup id)

theorem total_remaining_add (f : Figure) (block : List (Fin g.size)) (id : Fin g.size) :
    g.total f (g.remaining block id) + g.total f ((g.ancestorsOf id).filter fun a => a ∈ block) =
      g.total f (id :: g.ancestorsOf id) := by
  have hparts := total_filter_add f (fun a => decide (a ∈ block)) (g.ancestorsOf id)
  simp only [← decide_not] at hparts
  rw [total_perm (remaining_perm block id), total_cons, total_cons]
  omega

theorem toNat_reduced (hg : g.Consistent) (hnodup : block.Nodup) (f : Figure) (id : Fin g.size) :
    (f.ofPackage (g.reduced block id)).toNat =
      min (g.total f (id :: g.ancestorsOf id)) maxWord -
        g.total f ((g.ancestorsOf id).filter fun a => a ∈ block) := by
  rw [reduced, toNat_foldl_remove, toNat_fullPackage, total_shared hg hnodup]

theorem toNat_recomputed (f : Figure) (block : List (Fin g.size)) (id : Fin g.size) :
    (f.ofPackage (g.recomputed block id)).toNat =
      min (g.total f (g.remaining block id)) maxWord := by
  rw [recomputed, toNat_foldl_add, Figure.ofPackage_empty, UInt64.toNat_zero, Nat.zero_add]

theorem total_shared_le (hg : g.Consistent) (hnodup : block.Nodup) (f : Figure)
    (id : Fin g.size) :
    g.total f ((g.ancestorsOf id).filter fun a => a ∈ block) ≤ g.total f block := by
  rw [← total_shared hg hnodup]
  exact total_le_of_subset (hnodup.filter _) (List.filter_subset_self _)

theorem total_le_ids {ids : List (Fin g.size)} (hnodup : ids.Nodup) (f : Figure) :
    g.total f ids ≤ g.total f g.ids :=
  total_le_of_subset hnodup fun id _ => List.mem_finRange id

theorem reduced_weight_ne_zero (hg : g.Consistent) (hnodup : block.Nodup) (h : g.Measured block)
    (id : Fin g.size) : (g.reduced block id).weight ≠ 0 := by
  have hreduced := toNat_reduced hg hnodup .weight id
  have hparts := total_remaining_add .weight block id
  have hshared := total_shared_le hg hnodup .weight id
  have hall := total_le_ids (List.nodup_cons.mpr
    ⟨hg.not_mem_ancestors_self id, hg.ancestors_nodup id⟩) .weight
  have hown : (g.tx id).weight.toNat ≠ 0 :=
    fun hzero => hg.weight_ne_zero id (UInt64.toNat_inj.mp hzero)
  have hpos : g.total .weight (g.remaining block id) ≠ 0 := by
    rw [total_perm (remaining_perm block id), total_cons]
    simp only [Figure.ofTx]
    omega
  intro hzero
  simp only [Figure.ofPackage, hzero, UInt64.toNat_zero] at hreduced
  unfold Measured at h
  omega

/-- When sums fit into words, taking out and summing up again agree. -/
theorem ofPackage_recomputed (hg : g.Consistent) (hnodup : block.Nodup) {f : Figure}
    (hfits : g.total f g.ids ≤ maxWord) (id : Fin g.size) :
    f.ofPackage (g.recomputed block id) = f.ofPackage (g.reduced block id) := by
  have hparts := total_remaining_add f block id
  have hall := total_le_ids (List.nodup_cons.mpr
    ⟨hg.not_mem_ancestors_self id, hg.ancestors_nodup id⟩) f
  rw [← UInt64.toNat_inj, toNat_recomputed, toNat_reduced hg hnodup]
  omega

end CandidateGraph

/-! ## The sums of the block -/

namespace Limits

variable {limits : Limits} {usage : Usage} {p : Package}

theorem shortfall?_eq_none_iff :
    limits.shortfall? p = none ↔ limits.minFeeRate.feeFor p.weight ≤ p.fee := by
  rw [shortfall?, ite_eq_right_iff]
  simp [UInt64.not_lt]

theorem excess?_eq_none_iff : limits.excess? usage p = none ↔
    (usage.commit p).weight ≤ limits.maxWeight ∧
      (usage.commit p).sigopCost ≤ limits.maxSigopCost := by
  rw [excess?, ite_eq_right_iff]
  simp [Usage.commit, UInt64.not_lt]

/-- What a verdict says about the floor and the limits. -/
inductive Checks (limits : Limits) (usage : Usage) (p : Package) : Verdict → Prop
  | underpays {required : UInt64} (hshort : limits.shortfall? p = some required) :
      Checks limits usage p (.underpays required)
  | overflows {weight sigopCost : UInt64} (hpays : limits.shortfall? p = none)
      (hover : limits.excess? usage p = some (weight, sigopCost)) :
      Checks limits usage p (.overflows weight sigopCost)
  | fits (hpays : limits.shortfall? p = none) (hroom : limits.excess? usage p = none) :
      Checks limits usage p .fits

theorem checks_of_check {verdict : Verdict} (h : limits.check usage p = verdict) :
    limits.Checks usage p verdict := by
  rw [← h, check]
  cases hshort : limits.shortfall? p with
  | some required => exact .underpays hshort
  | none =>
      cases hover : limits.excess? usage p with
      | some sums => exact .overflows hshort hover
      | none => exact .fits hshort hover

/-- A package that fits keeps the sums within the limits. -/
theorem commit_le_of_check (h : limits.check usage p = .fits) :
    (usage.commit p).weight ≤ limits.maxWeight ∧
      (usage.commit p).sigopCost ≤ limits.maxSigopCost := by
  cases checks_of_check h with
  | fits hpays hroom => exact excess?_eq_none_iff.mp hroom

theorem feeFor_le_of_check (h : limits.check usage p = .fits) :
    limits.minFeeRate.feeFor p.weight ≤ p.fee := by
  cases checks_of_check h with
  | fits hpays hroom => exact shortfall?_eq_none_iff.mp hpays

end Limits

namespace RoundSetting

variable {s : RoundSetting}

theorem toNat_usageOf (f : Figure) (block : List (Fin s.graph.size)) :
    (f.ofUsage (s.usageOf block)).toNat =
      min ((f.reserved s.selector.reservation).toNat + s.graph.total f block) maxWord := by
  cases f <;> simp [usageOf, Figure.ofUsage, Figure.reserved]

/-- Counting a reduced package is counting its members, even where sums stay at the end. -/
theorem usageOf_extend (hg : s.graph.Consistent) {block : List (Fin s.graph.size)}
    (hnodup : block.Nodup) (head : Fin s.graph.size) :
    s.usageOf (block ++ s.graph.remaining block head) =
      (s.usageOf block).commit (s.graph.reduced block head) := by
  refine Figure.usage_ext fun f => ?_
  have hparts := CandidateGraph.total_remaining_add f block head
  have hshared := CandidateGraph.total_shared_le hg hnodup f head
  rw [Figure.ofUsage_commit, ← UInt64.toNat_inj, satAdd_toNat, toNat_usageOf, toNat_usageOf,
    CandidateGraph.total_append, CandidateGraph.toNat_reduced hg hnodup]
  omega

end RoundSetting

end BlockProduction

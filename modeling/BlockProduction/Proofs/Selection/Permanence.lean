import BlockProduction.Proofs.Selection.Packages
import BlockProduction.Proofs.Selection.Rerun

/-!
# Rejections that stand

What remains of a package may shrink after its rejection, since ancestors enter
the block on their own.  They enter the block all the same, so the block and
what remains of the package together only grow: a limit that was exceeded stays
exceeded.  A member that the gate refuses never enters the block, so it remains
in every package that it was in.
-/

namespace BlockProduction

/-! ## What remains of a package -/

/-- The package of some transactions. -/
def Package.ofTxs (txs : List Candidate) : Package :=
  txs.foldl Package.add .empty

/-- A candidate and those of its ancestors that do not stand in the block. -/
def PoolView.remainder (view : PoolView) (block : List Hash256) (h : Hash256) : List Candidate :=
  view.candidates.filter fun tx => tx.hash = h ∨ tx.hash ∈ view.ancestorsOf h ∧ tx.hash ∉ block

theorem satAdd_right_comm (a b c : UInt64) : satAdd (satAdd a b) c = satAdd (satAdd a c) b := by
  rw [← UInt64.toNat_inj]
  simp only [satAdd_toNat]
  omega

theorem Package.add_right_comm (p : Package) (tx other : Candidate) :
    (p.add tx).add other = (p.add other).add tx := by
  simp only [add, satAdd_right_comm _ tx.fee, satAdd_right_comm _ tx.weight,
    satAdd_right_comm _ tx.sigopCost]

theorem Package.ofTxs_perm {txs others : List Candidate} (h : txs.Perm others) :
    ofTxs txs = ofTxs others := by
  unfold ofTxs
  apply h.foldl_eq'
  intro tx _ other _ p
  exact p.add_right_comm tx other

namespace CandidateGraph

variable {g : CandidateGraph} {view : PoolView}

theorem Represents.remainder_perm (h : g.Represents view) (hg : g.Consistent)
    (block : List (Fin g.size)) (id : Fin g.size) :
    (view.remainder (block.map g.hash) (g.hash id)).Perm ((g.remaining block id).map g.tx) := by
  have hiff : ∀ m, (g.hash m = g.hash id ∨
      g.hash m ∈ view.ancestorsOf (g.hash id) ∧ g.hash m ∉ block.map g.hash) ↔
      m ∈ g.remaining block id := by
    intro m
    rw [mem_remaining, h.hash_mem_ancestorsOf_iff hg,
      List.mem_map_of_injective fun a b => hg.hash_inj]
    exact or_congr_left ⟨hg.hash_inj, congrArg g.hash⟩
  have hids : (g.ids.filter fun m => m ∈ g.remaining block id).Perm (g.remaining block id) := by
    apply (List.perm_ext_iff_of_nodup ((List.nodup_finRange _).filter _)
      (remaining_nodup hg block id)).mpr
    intro m
    simp
  apply ((h.candidates_perm.filter _).symm).trans
  rw [List.filter_map]
  refine (List.Perm.of_eq (congrArg (List.map g.tx) ?_)).trans (hids.map g.tx)
  apply List.filter_congr
  intro m _
  exact decide_eq_decide.mpr (hiff m)

/-- What remains of a package in the pool has the sums of what remains of it in the graph. -/
theorem Represents.ofTxs_remainder (h : g.Represents view) (hg : g.Consistent)
    (block : List (Fin g.size)) (id : Fin g.size) :
    Package.ofTxs (view.remainder (block.map g.hash) (g.hash id)) = g.recomputed block id := by
  rw [Package.ofTxs_perm (h.remainder_perm hg block id), Package.ofTxs, List.foldl_map]
  rfl

end CandidateGraph

/-! ## The points of a round -/

/-- A reason of the limits or of the gate. -/
def SkipReason.Standing (reason : SkipReason) : Prop :=
  (∃ weight sigopCost, reason = .limits weight sigopCost) ∨ reason.Inadmissible

namespace RoundSetting

variable {s : RoundSetting} {view : PoolView} {r : Round s.graph.size} {l : Ledger s.graph.size}
  {a id head : Fin s.graph.size} {block larger : List (Fin s.graph.size)}

/-- The round after a consideration, whether it goes on or ends there. -/
def Considered.round {n : Nat} : Considered n → Round n
  | .next r => r
  | .full r => r

/-- The points that a round comes to: its start, and the end of every consideration. -/
inductive Reaches (s : RoundSetting) : Round s.graph.size → Prop
  | start : Reaches s s.start
  | next {r : Round s.graph.size} {head : Fin s.graph.size} {queue : RankedQueue s.graph.size}
      {outcome : Considered s.graph.size} (h : Reaches s r)
      (hpop : r.queue.pop? = some (head, queue))
      (hconsider : s.consider { r with queue, considered := r.considered + 1 } head = .ok outcome) :
      Reaches s outcome.round

/-- A round ends with the report of a point that it has come to. -/
theorem Reaches.run (h : s.Reaches r) {budget : Nat} {report : SelectionReport}
    (hrun : s.run budget r = .ok report) :
    ∃ last stop, s.Reaches last ∧ report = s.report last stop := by
  induction budget generalizing r with
  | zero =>
      rw [RoundSetting.run] at hrun
      cases hpop : r.queue.pop? with
      | none =>
          simp only [hpop, Except.ok.injEq] at hrun
          exact ⟨r, _, h, hrun.symm⟩
      | some popped =>
          simp only [hpop, Except.ok.injEq] at hrun
          exact ⟨r, _, h, hrun.symm⟩
  | succ budget ih =>
      rw [RoundSetting.run] at hrun
      cases hpop : r.queue.pop? with
      | none =>
          simp only [hpop, Except.ok.injEq] at hrun
          exact ⟨r, _, h, hrun.symm⟩
      | some popped =>
          simp only [hpop] at hrun
          cases hconsider : s.consider
              { r with queue := popped.2, considered := r.considered + 1 } popped.1 with
          | error e => simp [hconsider] at hrun
          | ok outcome =>
              have hnext := h.next hpop hconsider
              simp only [hconsider] at hrun
              cases outcome with
              | next r => exact ih hnext hrun
              | full r =>
                  simp only [Except.ok.injEq] at hrun
                  exact ⟨r, _, hnext, hrun.symm⟩

/-- With what remains of its package the block would exceed a limit, or the gate refuses a
member of what remains. -/
def Hopeless (s : RoundSetting) (view : PoolView) (r : Round s.graph.size) (h : Hash256) : Prop :=
  (s.selector.limits.excess? r.draft.usage
      (.ofTxs (view.remainder r.draft.hashes h))).isSome = true ∨
    ∃ tx ∈ view.remainder r.draft.hashes h, (s.gate? tx).isSome = true

/-! ## Obstructed packages -/

/-- The sums of a block with what remains of a package. -/
theorem usageOf_append_remaining (block : List (Fin s.graph.size)) (id : Fin s.graph.size) :
    s.usageOf (block ++ s.graph.remaining block id) =
      (s.usageOf block).commit (s.graph.recomputed block id) := by
  refine Figure.usage_ext fun f => ?_
  rw [Figure.ofUsage_commit, ← UInt64.toNat_inj, satAdd_toNat, toNat_usageOf, toNat_usageOf,
    CandidateGraph.total_append, CandidateGraph.toNat_recomputed]
  omega

theorem withinLimits_of_subset (hnodup : block.Nodup) (hsub : block ⊆ larger)
    (h : s.WithinLimits larger) : s.WithinLimits block := by
  have hle : ∀ f : Figure,
      (f.ofUsage (s.usageOf block)).toNat ≤ (f.ofUsage (s.usageOf larger)).toNat := by
    intro f
    have htotal := CandidateGraph.total_le_of_subset (f := f) hnodup hsub
    rw [toNat_usageOf, toNat_usageOf]
    omega
  have hweight := UInt64.le_iff_toNat_le.mp h.1
  have hsigops := UInt64.le_iff_toNat_le.mp h.2
  constructor
  · exact UInt64.le_iff_toNat_le.mpr ((hle .weight).trans hweight)
  · exact UInt64.le_iff_toNat_le.mpr ((hle .sigopCost).trans hsigops)

/-- The block has no room for what remains of a package, or the gate refuses a member of it. -/
def Obstructed (s : RoundSetting) (block : List (Fin s.graph.size)) (id : Fin s.graph.size) : Prop :=
  ¬s.WithinLimits (block ++ s.graph.remaining block id) ∨
    ∃ m ∈ s.graph.remaining block id, (s.gate? (s.graph.tx m)).isSome = true

/-- Once a package is obstructed, every package with its head is so for good. -/
theorem Obstructed.mono (hg : s.graph.Consistent) (h : s.Obstructed block a)
    (hnodup : block.Nodup) (ha : a ∉ block) (hid : a = id ∨ a ∈ s.graph.ancestorsOf id)
    (hsub : block ⊆ larger) (hadmitted : ∀ m ∈ larger, s.gate? (s.graph.tx m) = none) :
    s.Obstructed larger id := by
  -- what was left of the package is in the block by now, or left of the larger package
  have hkept : ∀ m ∈ s.graph.remaining block a, m ∈ larger ∨ m ∈ s.graph.remaining larger id := by
    intro m hm
    by_cases hin : m ∈ larger
    · exact .inl hin
    · right
      rw [mem_remaining] at hm ⊢
      rcases hm with rfl | ⟨hm, -⟩
      · exact hid.imp_right fun hancestor => ⟨hancestor, hin⟩
      · rcases hid with rfl | hancestor
        · exact .inr ⟨hm, hin⟩
        · exact .inr ⟨hg.ancestors_trans hm hancestor, hin⟩
  rcases h with hover | ⟨m, hm, hgate⟩
  · left
    intro hwithin
    apply hover
    apply withinLimits_of_subset _ _ hwithin
    · apply List.nodup_append.mpr
      refine ⟨hnodup, remaining_nodup hg block a, ?_⟩
      intro m hin m' hm heq
      exact not_mem_block_of_mem_remaining ha hm (heq ▸ hin)
    · intro m hm
      rw [List.mem_append] at hm ⊢
      rcases hm with hm | hm
      · exact .inl (hsub hm)
      · exact hkept m hm
  · right
    refine ⟨m, (hkept m hm).resolve_left ?_, hgate⟩
    intro hin
    rw [hadmitted m hin] at hgate
    nomatch hgate

/-! ## Rounds -/

/-- Whoever was skipped for a reason of the limits or of the gate is obstructed. -/
structure Obstructs (l : Ledger s.graph.size) : Prop where
  settled : Settled l
  admitted : Admitted l
  obstructed : ∀ entry ∈ l.skips, entry.2.Standing → s.Obstructed l.block entry.1

theorem Obstructs.empty : Obstructs (s := s) .empty where
  settled := .empty
  admitted := fun id hid => absurd hid (by simp [Ledger.empty])
  obstructed := fun entry hentry => absurd hentry (by simp [Ledger.empty])

theorem obstructed_reject
    (h : ∀ entry ∈ l.skips, entry.2.Standing → s.Obstructed l.block entry.1) {reason : SkipReason}
    (hreason : reason.Standing → s.Obstructed l.block id) :
    ∀ entry ∈ (s.graph.reject l id reason).skips, entry.2.Standing →
      s.Obstructed l.block entry.1 := by
  rintro ⟨x, found⟩ hentry hstanding
  obtain ⟨i, hi⟩ := List.getElem?_of_mem hentry
  rcases getElem?_skips_reject hi with hold | ⟨-, rfl, rfl⟩ | ⟨-, -, rfl⟩
  · exact h _ (List.mem_of_getElem? hold) hstanding
  · exact hreason hstanding
  · simp [SkipReason.Standing, SkipReason.Inadmissible] at hstanding

theorem Obstructs.step (hg : s.graph.Consistent) (h : Obstructs l) (hopen : l.isOpen head = true)
    {l' : Ledger s.graph.size} (hd : Decides s s.graph.reduced (l.consider head) head l') :
    Obstructs l' := by
  have hadmitted := h.admitted.step hd
  refine ⟨h.settled.step hg hopen hd, hadmitted, ?_⟩
  have hold : ∀ entry ∈ (l.consider head).skips, entry.2.Standing →
      s.Obstructed (l.consider head).block entry.1 := h.obstructed
  cases hd with
  | underpaid hcheck =>
      apply obstructed_reject hold
      simp [SkipReason.Standing, SkipReason.Inadmissible]
  | overflowing failures hcheck =>
      apply obstructed_reject hold
      intro _
      left
      rw [Ledger.block_consider] at hcheck
      rw [WithinLimits, Ledger.block_consider,
        usageOf_extend hg h.settled.lawful.block_nodup, ← Limits.excess?_eq_none_iff]
      cases Limits.checks_of_check hcheck with
      | overflows hpays hover => simp [hover]
  | refused failures hcheck hmember hgate =>
      apply obstructed_reject hold
      intro _
      exact .inr ⟨_, mem_remaining.mpr (.inl rfl), by rw [hgate]; rfl⟩
  | included hcheck hgate =>
      intro entry hentry hstanding
      have hout : entry.1 ∉ l.block := fun hin =>
        h.settled.lawful.not_skipped hin (List.mem_map.mpr ⟨entry, hentry, rfl⟩)
      exact (h.obstructed entry hentry hstanding).mono hg h.settled.lawful.block_nodup hout
        (.inl rfl) (List.subset_append_left _ _) hadmitted

/-- At every point of a round its state is that of a ledger whose rejections stand. -/
theorem Reaches.matches (hg : s.graph.Consistent) (hweights : s.WeightsFit) (h : s.Reaches r) :
    ∃ l, Matches s r l ∧ Obstructs l := by
  induction h with
  | start => exact ⟨.empty, matches_start hg, .empty⟩
  | @next r head queue outcome h hpop hconsider ih =>
      obtain ⟨l, hmatches, hl⟩ := ih
      obtain ⟨hbest, hpopped⟩ := hmatches.pop hg hpop
      have hopen := isOpen_of_best? hbest
      obtain ⟨hblock, hskipped, -⟩ := Ledger.isOpen_iff.mp hopen
      obtain ⟨found, hfound, hagrees⟩ := hpopped.consider hg hweights
        (hl.settled.lawful.congr rfl rfl) hblock hskipped
      cases hconsider.symm.trans hfound
      generalize hjudge : s.judge s.graph.reduced (l.consider head) head = judged at hagrees
      cases hagrees with
      | next hnext => exact ⟨_, hnext, hl.step hg hopen (decides_of_judge hjudge)⟩
      | full hfull => exact ⟨_, hfull, hl.step hg hopen (decides_of_judge hjudge)⟩

theorem Obstructed.hopeless (hg : s.graph.Consistent) (hshown : s.graph.Represents view)
    (hmatches : Matches s r l) (h : s.Obstructed l.block id) :
    s.Hopeless view r (s.graph.hash id) := by
  have hhashes : r.draft.hashes = l.block.map s.graph.hash := by
    rw [hmatches.draft]
    show (s.reportOf l .poolExhausted).draft.hashes = _
    exact hashes_reportOf
  rw [Hopeless, hhashes]
  rcases h with hover | ⟨m, hm, hgate⟩
  · left
    rw [hshown.ofTxs_remainder hg, hmatches.usage_eq, Option.isSome_iff_ne_none, Ne,
      Limits.excess?_eq_none_iff, ← usageOf_append_remaining]
    exact hover
  · right
    refine ⟨s.graph.tx m, ?_, hgate⟩
    rw [(hshown.remainder_perm hg l.block id).mem_iff]
    exact List.mem_map_of_mem hm

/-- Whoever depends on a candidate that the limits or the gate have rejected stays without
hope. -/
theorem Reaches.hopeless (hview : CandidateGraph.ofView view = .ok s.graph) (hweights : s.WeightsFit)
    (hreach : s.Reaches r) {skip : Skip} (hskip : skip ∈ r.skips) (hstanding : skip.reason.Standing)
    {h : Hash256} (hh : h ∈ view.hashes) (hbelow : h = skip.hash ∨ skip.hash ∈ view.ancestorsOf h) :
    s.Hopeless view r h := by
  have hg := CandidateGraph.consistent_of_ofView hview
  have hshown := CandidateGraph.represents_of_ofView hview
  obtain ⟨l, hmatches, hl⟩ := hreach.matches hg hweights
  have hlisted : skip ∈ l.skips.map fun entry => ⟨s.graph.hash entry.1, entry.2⟩ := by
    rw [← hmatches.skips]
    exact List.mem_reverse.mpr hskip
  obtain ⟨entry, hentry, rfl⟩ := List.mem_map.mp hlisted
  obtain ⟨id, rfl⟩ := hshown.mem_hashes_iff.mp hh
  have hout : entry.1 ∉ l.block := fun hin =>
    hl.settled.lawful.not_skipped hin (List.mem_map.mpr ⟨entry, hentry, rfl⟩)
  have hid : entry.1 = id ∨ entry.1 ∈ s.graph.ancestorsOf id := by
    rcases hbelow with hself | hancestor
    · exact .inl (hg.hash_inj hself).symm
    · exact .inr ((hshown.hash_mem_ancestorsOf_iff hg).mp hancestor)
  exact ((hl.obstructed entry hentry hstanding).mono hg hl.settled.lawful.block_nodup hout hid
    (List.Subset.refl _) hl.admitted).hopeless hg hshown hmatches

end RoundSetting

/-- A round reports one of the points that it comes to.  At each of them, a candidate that was
skipped for a reason of the limits or of the gate could still not be included, and nobody could
who depends on it: with what the block lacks of the package a limit would be exceeded, or the gate
refuses a member. -/
theorem Selector.select_rejections_stand (selector : Selector) {view : PoolView}
    {graph : CandidateGraph} (hview : CandidateGraph.ofView view = .ok graph)
    (confirmations : Confirmations) (context : RoundContext)
    (hweights : (view.candidates.map fun tx => tx.weight.toNat).sum ≤ maxWord) :
    let s : RoundSetting := { selector, graph, confirmations, context }
    (∃ last stop, s.Reaches last ∧
      selector.select view confirmations context = .ok (s.report last stop)) ∧
    ∀ r, s.Reaches r → ∀ skip ∈ r.skips, skip.reason.Standing → ∀ h ∈ view.hashes,
      h = skip.hash ∨ skip.hash ∈ view.ancestorsOf h → s.Hopeless view r h := by
  intro s
  have hfits : s.WeightsFit := by
    right
    rw [(CandidateGraph.represents_of_ofView hview).total_ids]
    exact hweights
  constructor
  · have hselect := s.select_eq_outcome hview hfits
    have hrun : s.run selector.maxConsidered.toNat s.start =
        .ok (s.reportOf s.outcome.1 s.outcome.2) := by
      rw [← hselect, Selector.select, hview]
    obtain ⟨last, stop, hlast, hreport⟩ := RoundSetting.Reaches.start.run hrun
    exact ⟨last, stop, hlast, hreport ▸ hselect⟩
  · intro r hreach skip hskip hstanding h hh hbelow
    exact hreach.hopeless hview hfits hskip hstanding hh hbelow

/-- A round that skips a heavy candidate and then the one that it depends on. -/
theorem Selector.select_rejections_stand_exposed :
    CandidateGraph.ofView (decoyPool.without [⟨2⟩]) = .ok exposedGraph ∧
    ((decoyPool.without [⟨2⟩]).candidates.map fun tx => tx.weight.toNat).sum ≤ maxWord ∧
    ∃ last, (narrowRound exposedGraph).Reaches last ∧
      last.skips = [⟨⟨1⟩, .missingInputs⟩, ⟨⟨3⟩, .limits 7100 408⟩] ∧
      (narrowRound exposedGraph).Hopeless (decoyPool.without [⟨2⟩]) last ⟨1⟩ ∧
      (narrowRound exposedGraph).Hopeless (decoyPool.without [⟨2⟩]) last ⟨3⟩ := by
  obtain ⟨⟨last, stop, hlast, hselect⟩, hstand⟩ := Selector.select_rejections_stand
    Config.narrow.toSelector ofView_decoyPool_without familyFunds default (by decide)
  have hreport := (narrowRound exposedGraph).select_eq_outcome ofView_decoyPool_without
    (Config.valid_narrow.weightsFit rfl)
  rw [outcome_exposedGraph] at hreport
  have hsame := congrArg SelectionReport.skipped (Except.ok.inj (hselect.symm.trans hreport))
  have hskips : last.skips = [⟨⟨1⟩, .missingInputs⟩, ⟨⟨3⟩, .limits 7100 408⟩] :=
    List.reverse_injective hsame
  refine ⟨ofView_decoyPool_without, by decide, last, hlast, hskips, ?_, ?_⟩
  · exact hstand last hlast ⟨⟨1⟩, .missingInputs⟩ (by simp [hskips]) (.inr trivial) ⟨1⟩
      (by decide) (.inl rfl)
  · exact hstand last hlast ⟨⟨3⟩, .limits 7100 408⟩ (by simp [hskips]) (.inl ⟨_, _, rfl⟩) ⟨3⟩
      (by decide) (.inl rfl)

end BlockProduction

import BlockProduction.Proofs.Block.Validity
import BlockProduction.Proofs.Selection.Report

/-!
# Rounds give valid templates

Under a valid configuration, and as long as all fees together with the first
subsidy fit into a word, the block of every round can be finalized, and the
template passes all rules.
-/

namespace BlockProduction

namespace RoundSetting

variable {s : RoundSetting} {l : Ledger s.graph.size} {head : Fin s.graph.size}

/-- The sums of a block keep the limits. -/
def WithinLimits (s : RoundSetting) (block : List (Fin s.graph.size)) : Prop :=
  (s.usageOf block).weight ≤ s.selector.limits.maxWeight ∧
    (s.usageOf block).sigopCost ≤ s.selector.limits.maxSigopCost

theorem withinLimits_step (hg : s.graph.Consistent) (hl : Settled l) (h : s.WithinLimits l.block)
    {l' : Ledger s.graph.size} (hd : Decides s s.graph.reduced (l.consider head) head l') :
    s.WithinLimits l'.block := by
  rcases hd.block_cases with hsame | ⟨hblock, hcheck, -⟩
  · rw [hsame]
    exact h
  · rw [Ledger.block_consider] at hblock hcheck
    rw [hblock, WithinLimits, usageOf_extend hg hl.lawful.block_nodup head]
    exact Limits.commit_le_of_check hcheck

theorem withinLimits_outcome (hg : s.graph.Consistent) (h : s.WithinLimits []) :
    s.WithinLimits s.outcome.1.block :=
  outcome_preserves (P := fun l => s.WithinLimits l.block) hg
    (fun hl hwithin _ hd => withinLimits_step hg hl hwithin hd) h

/-- Lawful blocks hold nobody before somebody whom it spends. -/
theorem ordered_outcome (hg : s.graph.Consistent) :
    Template.Ordered (s.outcome.1.block.map s.graph.tx) := by
  intro i j tx other input hi hj hinput hspent
  rw [List.getElem?_map] at hi hj
  obtain ⟨id, hid, rfl⟩ := Option.map_eq_some_iff.mp hi
  obtain ⟨parent, hparent, rfl⟩ := Option.map_eq_some_iff.mp hj
  have hknown : s.graph.idOf? input.prevout.hash = some parent := by
    rw [← hspent]
    exact hg.idOf?_hash parent
  exact (settled_outcome hg).lawful.lt_of_ancestor hg hid
    (hg.spent_mem_ancestors hinput hknown) hparent

theorem toNat_fees_outcome (hg : s.graph.Consistent)
    (hfees : s.graph.total .fee s.graph.ids ≤ maxWord) :
    (s.usageOf s.outcome.1.block).fees.toNat = s.graph.total .fee s.outcome.1.block := by
  have hle := CandidateGraph.total_le_ids (settled_outcome hg).lawful.block_nodup .fee
  have husage := toNat_usageOf .fee s.outcome.1.block
  simp only [Figure.ofUsage, Figure.reserved, UInt64.toNat_zero, Nat.zero_add] at husage
  omega

/-- The block of a round is finalized into a template that passes all rules. -/
theorem valid_outcome (terms : CoinbaseTerms) (hg : s.graph.Consistent) (h : s.WithinLimits [])
    (hfees : s.graph.total .fee s.graph.ids + initialSubsidy ≤ maxWord) :
    ∃ template, (s.draftOf s.outcome.1.block).finalize terms = .ok template ∧
      template.validate s.selector.limits terms.halvingInterval = .ok () := by
  have hlawful := (settled_outcome (s := s) hg).lawful
  have hexact : (s.usageOf s.outcome.1.block).fees.toNat = s.graph.total .fee s.outcome.1.block :=
    toNat_fees_outcome hg (by omega)
  have hle := CandidateGraph.total_le_ids hlawful.block_nodup .fee
  have hfit : initialSubsidy + (s.usageOf s.outcome.1.block).fees.toNat ≤ maxWord := by omega
  obtain ⟨t, hfinalize, ht⟩ := Draft.finalizes_of_fits (s.draftOf s.outcome.1.block) terms hfit
  refine ⟨t, hfinalize, Template.validate_eq_ok_iff.mpr ⟨?_, ?_, ?_, ?_, ?_⟩⟩
  · rw [Template.checkLimits_eq_ok_iff, ht.totalWeight_eq, ht.totalSigopCost_eq]
    exact withinLimits_outcome hg h
  · rw [Template.checkDistinct_eq_ok_iff, Template.selectedHashes, ht.transactions_eq, draftOf,
      List.map_map]
    exact hg.nodup_map_hash hlawful.block_nodup
  · rw [Template.checkOrder_eq_ok_iff, ht.transactions_eq]
    exact ordered_outcome hg
  · have hsum : (t.transactions.map fun tx => tx.fee.toNat).sum =
        s.graph.total .fee s.outcome.1.block := by
      rw [ht.transactions_eq, draftOf, List.map_map]
      rfl
    rw [Template.checkCoinbase_eq_ok_iff, hsum, ht.value_eq, ht.totalFees_eq]
    exact ⟨hexact, rfl⟩
  · exact Template.checkMerkleRoot_eq_ok_iff.mpr ht.merkleRoot_eq

end RoundSetting

/-- The reservation alone keeps the limits. -/
theorem Config.Valid.withinLimits_nil {config : Config} (h : config.Valid) {s : RoundSetting}
    (hselector : s.selector = config.toSelector) : s.WithinLimits [] := by
  rw [RoundSetting.WithinLimits, RoundSetting.usageOf_nil, hselector]
  exact ⟨UInt64.le_of_lt h.reserved_weight_lt, UInt64.le_of_lt h.reserved_sigops_lt⟩

/-- Whatever the pool, the chain and the context, selection under a valid configuration gives a
block that can be finalized into a valid template. -/
theorem Config.select_valid {config : Config} {view : PoolView}
    (hconfig : config.validate = .ok ()) (hview : view.Accepted)
    (hfees : (view.candidates.map fun tx => tx.fee.toNat).sum + initialSubsidy ≤ maxWord)
    (confirmations : Confirmations) (context : RoundContext) :
    ∃ report template, config.toSelector.select view confirmations context = .ok report ∧
      report.draft.finalize config.coinbaseTerms = .ok template ∧
      template.validate config.limits config.consensus.halvingInterval = .ok () := by
  have hvalid := Config.validate_eq_ok_iff.mp hconfig
  obtain ⟨graph, hgraph⟩ := hview
  let s : RoundSetting := { selector := config.toSelector, graph, confirmations, context }
  have hg := CandidateGraph.consistent_of_ofView hgraph
  have hstart : s.WithinLimits [] := by
    rw [RoundSetting.WithinLimits, RoundSetting.usageOf_nil]
    exact ⟨UInt64.le_of_lt hvalid.reserved_weight_lt, UInt64.le_of_lt hvalid.reserved_sigops_lt⟩
  have htotal : s.graph.total .fee s.graph.ids + initialSubsidy ≤ maxWord := by
    rw [(CandidateGraph.represents_of_ofView hgraph).total_ids]
    exact hfees
  obtain ⟨template, hfinalize, hchecked⟩ :=
    RoundSetting.valid_outcome config.coinbaseTerms hg hstart htotal
  exact ⟨_, template, s.select_eq_outcome hgraph (hvalid.weightsFit rfl), hfinalize, hchecked⟩

theorem Config.select_valid_familyPool :
    (Config.usual 1).validate = .ok () ∧ familyPool.Accepted ∧
    (familyPool.candidates.map fun tx => tx.fee.toNat).sum + initialSubsidy ≤ maxWord ∧
    ∃ report, (Config.usual 1).toSelector.select familyPool familyFunds default = .ok report ∧
      report.draft.hashes = [⟨1⟩, ⟨2⟩] ∧
      ∃ template, report.draft.finalize (Config.usual 1).coinbaseTerms = .ok template ∧
        template.validate (Config.usual 1).limits (Config.usual 1).consensus.halvingInterval =
          .ok () := by
  have hconfig : (Config.usual 1).validate = .ok () := rfl
  have hfees : (familyPool.candidates.map fun tx => tx.fee.toNat).sum + initialSubsidy ≤ maxWord :=
    by decide
  obtain ⟨report, template, hreport, hfinalize, hvalid⟩ :=
    Config.select_valid hconfig familyPool_accepted hfees familyFunds default
  exact ⟨hconfig, familyPool_accepted, hfees,
    select_familyPool ⟨report, hreport, template, hfinalize, hvalid⟩⟩

end BlockProduction

import BlockProduction.Proofs.Selection.Report

/-!
# Rounds against the reference

Greedy selection depends on the figures of packages only.  Where the sums over
the candidates fit into words, summing up the remaining members of a package and
taking the included ones out of the full package give the same figures, so that
a round reports what the reference reports.
-/

namespace BlockProduction

namespace RoundSetting

variable {s : RoundSetting} {package other : List (Fin s.graph.size) → Fin s.graph.size → Package}
  {l : Ledger s.graph.size} {head : Fin s.graph.size}

/-- Two ways of summing up that agree on the packages of open candidates. -/
def SameFigures (s : RoundSetting)
    (package other : List (Fin s.graph.size) → Fin s.graph.size → Package) : Prop :=
  ∀ {block : List (Fin s.graph.size)}, block.Nodup → ∀ id (f : Figure),
    f.ofPackage (package block id) = f.ofPackage (other block id)

theorem SameFigures.exactRate_eq (h : s.SameFigures package other)
    {block : List (Fin s.graph.size)} (hnodup : block.Nodup) (id : Fin s.graph.size) :
    CandidateGraph.exactRate (package block id) = CandidateGraph.exactRate (other block id) := by
  have hfee : (package block id).fee = (other block id).fee := h hnodup id .fee
  have hweight : (package block id).weight = (other block id).weight := h hnodup id .weight
  rw [CandidateGraph.exactRate, CandidateGraph.exactRate, hfee, hweight]

theorem SameFigures.best?_eq (h : s.SameFigures package other) (hnodup : l.block.Nodup) :
    s.best? package l = s.best? other l := by
  have hleads : ∀ a b, s.graph.leads (package l.block) a b = s.graph.leads (other l.block) a b := by
    intro a b
    simp only [CandidateGraph.leads, h.exactRate_eq hnodup]
  unfold best?
  refine List.find?_congr fun a _ => ?_
  exact List.all_congr rfl fun b => hleads a b

theorem SameFigures.judge_eq (h : s.SameFigures package other) (hnodup : l.block.Nodup) :
    s.judge package l head = s.judge other l head := by
  have hfee : (package l.block head).fee = (other l.block head).fee := h hnodup head .fee
  have hweight : (package l.block head).weight = (other l.block head).weight :=
    h hnodup head .weight
  simp only [judge, Limits.check_congr (h hnodup head), hfee, hweight]

theorem SameFigures.greedy_eq (hg : s.graph.Consistent) (h : s.SameFigures package other)
    (budget : Nat) (hl : Settled l) : s.greedy package budget l = s.greedy other budget l := by
  fun_induction s.greedy other budget l with
  | case1 budget l hbest =>
      exact greedy_of_none budget ((h.best?_eq hl.lawful.block_nodup).trans hbest)
  | case2 l head hbest => exact greedy_zero ((h.best?_eq hl.lawful.block_nodup).trans hbest)
  | case3 l head hbest budget next stop hjudge =>
      rw [greedy_succ budget ((h.best?_eq hl.lawful.block_nodup).trans hbest),
        h.judge_eq (l := l.consider head) hl.lawful.block_nodup, hjudge]
  | case4 l head hbest budget next hjudge ih =>
      rw [greedy_succ budget ((h.best?_eq hl.lawful.block_nodup).trans hbest),
        h.judge_eq (l := l.consider head) hl.lawful.block_nodup, hjudge]
      exact ih (hl.step hg (isOpen_of_best? hbest) (decides_of_judge hjudge))

end RoundSetting

/-! ## Rounds over views -/

/-- Where the sums over the candidates fit into words, the queue with its kept sums, flags and
verdicts changes nothing: a round reports what greedy selection reports that sums up every
package anew. -/
theorem Selector.select_eq_selectNaively (selector : Selector) (view : PoolView)
    (confirmations : Confirmations) (context : RoundContext)
    (hfees : (view.candidates.map fun tx => tx.fee.toNat).sum ≤ maxWord)
    (hweights : (view.candidates.map fun tx => tx.weight.toNat).sum ≤ maxWord)
    (hsigops : (view.candidates.map fun tx => tx.sigopCost.toNat).sum ≤ maxWord) :
    selector.select view confirmations context =
      selector.selectNaively view confirmations context := by
  cases hview : CandidateGraph.ofView view with
  | error e => rw [select, selectNaively, hview]
  | ok g =>
      have hg := CandidateGraph.consistent_of_ofView hview
      have hrepresents := CandidateGraph.represents_of_ofView hview
      have htotal : ∀ f : Figure, g.total f g.ids ≤ maxWord := by
        intro f
        rw [hrepresents.total_ids]
        cases f with
        | fee => exact hfees
        | weight => exact hweights
        | sigopCost => exact hsigops
      let s : RoundSetting := { selector, graph := g, confirmations, context }
      have hsame : s.SameFigures g.recomputed g.reduced :=
        fun hnodup id f => CandidateGraph.ofPackage_recomputed hg hnodup (htotal f) id
      have hgreedy : s.greedy g.recomputed selector.maxConsidered.toNat .empty = s.outcome :=
        hsame.greedy_eq hg _ .empty
      have hselect : selector.select view confirmations context =
          .ok (s.reportOf s.outcome.1 s.outcome.2) :=
        RoundSetting.select_eq_outcome s hview (.inr (htotal .weight))
      simp only [hselect, selectNaively, hview]
      exact congrArg (fun outcome => Except.ok (s.reportOf outcome.1 outcome.2)) hgreedy.symm

theorem Selector.select_eq_selectNaively_familyPool :
    (familyPool.candidates.map fun tx => tx.fee.toNat).sum ≤ maxWord ∧
    (familyPool.candidates.map fun tx => tx.weight.toNat).sum ≤ maxWord ∧
    (familyPool.candidates.map fun tx => tx.sigopCost.toNat).sum ≤ maxWord ∧
    ∃ report, (Config.usual 1).toSelector.select familyPool familyFunds default = .ok report ∧
      report.draft.hashes = [⟨1⟩, ⟨2⟩] ∧
      (Config.usual 1).toSelector.selectNaively familyPool familyFunds default = .ok report := by
  have hfees : (familyPool.candidates.map fun tx => tx.fee.toNat).sum ≤ maxWord := by decide
  have hweights : (familyPool.candidates.map fun tx => tx.weight.toNat).sum ≤ maxWord := by decide
  have hsigops : (familyPool.candidates.map fun tx => tx.sigopCost.toNat).sum ≤ maxWord := by decide
  have hsame := Selector.select_eq_selectNaively (Config.usual 1).toSelector familyPool familyFunds
    default hfees hweights hsigops
  have hselect := familyRound.select_eq_outcome ofView_familyPool
    (.inr (by decide))
  exact ⟨hfees, hweights, hsigops,
    select_familyPool ⟨_, hselect, hsame.symm.trans hselect⟩⟩

end BlockProduction

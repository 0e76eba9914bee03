import BlockProduction.Proofs.Selection.Rerun

/-!
# Longer rounds

A round asks how many candidates it may still consider only when there is one
left to consider.  If it may consider more of them, it decides everything that it
decided before, in the same order, and then it goes on.  A round that ended for
another reason ends in the same way.
-/

namespace BlockProduction

namespace RoundSetting

variable {s : RoundSetting} {package : List (Fin s.graph.size) → Fin s.graph.size → Package}

/-- The same setting with another number of candidates to consider. -/
abbrev allowing (s : RoundSetting) (limit : UInt64) : RoundSetting :=
  { s with selector := { s.selector with maxConsidered := limit } }

/-- No decision reads how many candidates may be considered. -/
theorem judge_allowing (limit : UInt64) (l : Ledger s.graph.size) (head : Fin s.graph.size) :
    (s.allowing limit).judge package l head = s.judge package l head := by
  cases hcheck : s.selector.limits.check (s.usageOf l.block) (package l.block head) with
  | underpays required =>
      rw [judge_of_underpays hcheck]
      exact judge_of_underpays hcheck
  | overflows weight sigopCost =>
      rw [judge_of_overflows hcheck]
      exact judge_of_overflows hcheck
  | fits =>
      cases hfound : (s.graph.remaining l.block head).findSome? s.refusal? with
      | some refusal =>
          rw [judge_of_refused hcheck hfound]
          exact judge_of_refused hcheck hfound
      | none =>
          rw [judge_of_admitted hcheck hfound]
          exact judge_of_admitted hcheck hfound

theorem greedy_allowing (limit : UInt64) (budget : Nat) (l : Ledger s.graph.size) :
    (s.allowing limit).greedy package budget l = s.greedy package budget l := by
  fun_induction s.greedy package budget l with
  | case1 budget l hbest => exact greedy_of_none budget hbest
  | case2 l head hbest => exact greedy_zero hbest
  | case3 l head hbest budget next stop hjudge =>
      refine (greedy_succ (s := s.allowing limit) budget hbest).trans ?_
      rw [judge_allowing, hjudge]
  | case4 l head hbest budget next hjudge ih =>
      refine (greedy_succ (s := s.allowing limit) budget hbest).trans ?_
      rw [judge_allowing, hjudge]
      exact ih

theorem outcome_allowing (s : RoundSetting) (limit : UInt64) :
    (s.allowing limit).outcome = s.greedy s.graph.reduced limit.toNat .empty :=
  greedy_allowing limit limit.toNat .empty

/-- Where the limit does not end the shorter round, the longer one takes the same decisions
to the end. -/
theorem greedy_prolonged {budget more : Nat} (hle : budget ≤ more) (l : Ledger s.graph.size) :
    s.greedy package more l = s.greedy package budget l ∨
      (s.greedy package budget l).2 = .considerationBudgetExhausted ∧
        (s.greedy package budget l).1.Begins (s.greedy package more l).1 := by
  fun_induction s.greedy package budget l generalizing more with
  | case1 budget l hbest =>
      left
      exact greedy_of_none more hbest
  | case2 l head hbest =>
      right
      exact ⟨rfl, begins_greedy more l⟩
  | case3 l head hbest budget next stop hjudge =>
      obtain ⟨rest, rfl⟩ : ∃ rest, more = rest + 1 := ⟨more - 1, by omega⟩
      left
      rw [greedy_succ rest hbest, hjudge]
  | case4 l head hbest budget next hjudge ih =>
      obtain ⟨rest, rfl⟩ : ∃ rest, more = rest + 1 := ⟨more - 1, by omega⟩
      rw [greedy_succ rest hbest, hjudge]
      exact ih (by omega)

end RoundSetting

/-- What the report of a round says of a round that may consider more candidates. -/
structure SelectionReport.Prolongs (longer report : SelectionReport) (limit : Nat) : Prop where
  included : report.draft.transactions <+: longer.draft.transactions
  skipped : report.skipped <+: longer.skipped
  considered : report.considered = min limit longer.considered
  same : report.stop ≠ .considerationBudgetExhausted → longer = report

namespace RoundSetting

theorem prolongs_reportOf (s : RoundSetting) {fewer more : UInt64} (hle : fewer ≤ more) :
    SelectionReport.Prolongs
      ((s.allowing more).reportOf (s.allowing more).outcome.1 (s.allowing more).outcome.2)
      ((s.allowing fewer).reportOf (s.allowing fewer).outcome.1 (s.allowing fewer).outcome.2)
      fewer.toNat := by
  have hbudget : fewer.toNat ≤ more.toNat := UInt64.le_iff_toNat_le.mp hle
  simp only [outcome_allowing]
  generalize hshort : s.greedy s.graph.reduced fewer.toNat .empty = short
  generalize hlong : s.greedy s.graph.reduced more.toNat .empty = long
  have hprolonged : long = short ∨
      short.2 = .considerationBudgetExhausted ∧ short.1.Begins long.1 := by
    rw [← hshort, ← hlong]
    exact greedy_prolonged hbudget .empty
  have hends : Ends 0 fewer.toNat short.1 short.2 := by
    rw [← hshort]
    exact ends_greedy fewer.toNat .empty
  have hlimit : short.1.considered.length ≤ 0 + fewer.toNat := hends.considered_le
  rcases hprolonged with hsame | ⟨hspent, hbegins⟩
  · subst hsame
    refine ⟨List.prefix_refl _, List.prefix_refl _, ?_, fun _ => rfl⟩
    show long.1.considered.length = min fewer.toNat long.1.considered.length
    omega
  · have hlength : short.1.considered.length = 0 + fewer.toNat := (hends.spent hspent).1
    have hmore : short.1.considered.length ≤ long.1.considered.length :=
      hbegins.considered.length_le
    refine ⟨hbegins.block.map _, hbegins.skips.map _, ?_, fun hother => absurd hspent hother⟩
    show short.1.considered.length = min fewer.toNat long.1.considered.length
    omega

end RoundSetting

/-- A configuration with another number of candidates to consider in a round. -/
def Config.allowing (config : Config) (limit : UInt64) : Config :=
  { config with selector := { config.selector with maxCandidatesConsidered := limit } }

/-- A round that may consider more candidates begins with the round that may consider fewer, and
is the same where the limit did not end it. -/
theorem Config.select_prolonged {config : Config} {view : PoolView} {fewer more : UInt64}
    (hle : fewer ≤ more) (hconfig : (config.allowing fewer).validate = .ok ())
    (hconfig' : (config.allowing more).validate = .ok ()) (hview : view.Accepted)
    (confirmations : Confirmations) (context : RoundContext) :
    ∃ report longer,
      (config.allowing fewer).toSelector.select view confirmations context = .ok report ∧
      (config.allowing more).toSelector.select view confirmations context = .ok longer ∧
      longer.Prolongs report fewer.toNat := by
  obtain ⟨graph, hgraph⟩ := hview
  let s : RoundSetting := { selector := config.toSelector, graph, confirmations, context }
  have hweights : (s.allowing fewer).WeightsFit :=
    (Config.validate_eq_ok_iff.mp hconfig).weightsFit rfl
  have hweights' : (s.allowing more).WeightsFit :=
    (Config.validate_eq_ok_iff.mp hconfig').weightsFit rfl
  exact ⟨_, _, (s.allowing fewer).select_eq_outcome hgraph hweights,
    (s.allowing more).select_eq_outcome hgraph hweights', s.prolongs_reportOf hle⟩

/-- With one consideration a round only skips candidates; with two it includes one as well. -/
theorem Config.select_prolonged_decoyPool :
    (1 : UInt64) ≤ 2 ∧ (Config.narrow.allowing 1).validate = .ok () ∧
    (Config.narrow.allowing 2).validate = .ok () ∧ decoyPool.Accepted ∧
    ∃ report longer,
      (Config.narrow.allowing 1).toSelector.select decoyPool familyFunds default = .ok report ∧
      (Config.narrow.allowing 2).toSelector.select decoyPool familyFunds default = .ok longer ∧
      longer.Prolongs report 1 ∧ report.considered = 1 ∧ longer.considered = 2 := by
  have hfew : (Config.narrow.allowing 1).validate = .ok () := rfl
  have hmore : (Config.narrow.allowing 2).validate = .ok () := rfl
  obtain ⟨report, longer, hreport, hlonger, hprolongs⟩ :=
    Config.select_prolonged (by decide) hfew hmore decoyPool_accepted familyFunds default
  have hselect := (narrowRound decoyGraph).select_eq_outcome ofView_decoyPool
    (Config.valid_narrow.weightsFit rfl)
  rw [outcome_decoyGraph] at hselect
  have hconsidered : longer.considered = 2 :=
    congrArg SelectionReport.considered (Except.ok.inj (hlonger.symm.trans hselect))
  have hfewer : report.considered = min 1 2 := by
    rw [← hconsidered]
    exact hprolongs.considered
  exact ⟨by decide, hfew, hmore, decoyPool_accepted, report, longer, hreport, hlonger, hprolongs,
    hfewer, hconsidered⟩

end BlockProduction

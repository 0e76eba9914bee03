import BlockProduction.Proofs.Selection.Gate
import BlockProduction.Proofs.Selection.Report
import BlockProduction.Proofs.Selection.Vouched

/-!
# Maturity of block rewards

The gate looks at the age of the block rewards that a transaction spends if the
pool says that it spends any.  Everybody in a block has passed the gate, so the
rewards that are spent by such a transaction have come of age.
-/

namespace BlockProduction

namespace RoundSetting

variable {s : RoundSetting} {tx : Candidate} {input : TxInput} {c : Confirmation}

theorem mature_of_gate? (h : s.gate? tx = none) (hspends : tx.spendsCoinbase = true)
    (hinput : input ∈ tx.inputs) (hc : s.confirmation? input = some c)
    (hcoinbase : c.isCoinbase = true) :
    c.height.toNat + Finality.coinbaseMaturity.toNat ≤ s.context.targetHeight.toNat := by
  obtain ⟨-, -, hall⟩ := gate?_eq_none_iff.mp h
  obtain ⟨confirmed, hconfirmed, hspendable⟩ := hall input hinput
  rw [hc] at hconfirmed
  cases hconfirmed
  exact hspendable.mature hspends hcoinbase

end RoundSetting

/-- Whatever the pool and the chain, no block that a round builds has a transaction that is known
to spend a block reward and spends one that is too young. -/
theorem Selector.select_mature {selector : Selector} {view : PoolView}
    {confirmations : Confirmations} {context : RoundContext} {report : SelectionReport}
    (h : selector.select view confirmations context = .ok report) {tx : Candidate}
    (htx : tx ∈ report.draft.transactions) (hspends : tx.spendsCoinbase = true) {input : TxInput}
    (hinput : input ∈ tx.inputs)
    (hforeign : ∀ other ∈ view.candidates, other.hash ≠ input.prevout.hash) {c : Confirmation}
    (hc : confirmations input.prevout = some c) (hcoinbase : c.isCoinbase = true) :
    c.height.toNat + Finality.coinbaseMaturity.toNat ≤ context.targetHeight.toNat := by
  obtain ⟨graph, hview, -, hadmitted⟩ := vouched_select h
  let s : RoundSetting := { selector, graph, confirmations, context }
  have hunknown : ¬(graph.idOf? input.prevout.hash).isSome = true := by
    rw [CandidateGraph.idOf?_isSome_iff]
    rintro ⟨id, hid⟩
    have hmem := (CandidateGraph.represents_of_ofView hview).mem_candidates_iff.mpr ⟨id, rfl⟩
    exact hforeign _ hmem hid
  have hconfirmed : s.confirmation? input = some c := by
    rw [RoundSetting.confirmation?, if_neg hunknown]
    exact hc
  exact RoundSetting.mature_of_gate? (hadmitted tx htx) hspends hinput hconfirmed hcoinbase

/-! ## A reward and its spender -/

/-- The spender of a block reward, which says so or not. -/
def rewardTx (declared : Bool) : Candidate :=
  ⟨⟨1⟩, 2, 9000, 1000, 4, [⟨⟨⟨9⟩, 0⟩, finalSequence⟩], 0, declared⟩

def rewardPool (declared : Bool) : PoolView :=
  .ofTables [rewardTx declared] [(⟨1⟩, [])] [(⟨1⟩, [])]

/-- The block reward of height zero is confirmed. -/
def rewardFunds : Confirmations := fun outpoint =>
  if outpoint.hash = ⟨9⟩ then some ⟨0, 0, true⟩ else none

/-- The block is the first that may spend the reward if the spender says so, and else the one
before it. -/
def rewardContext (declared : Bool) : RoundContext :=
  ⟨⟨⟨0⟩, if declared then 99 else 98, 0, 0⟩, 0⟩

abbrev rewardGraph (declared : Bool) : CandidateGraph :=
  { size := 1
    txs := ⟨#[rewardTx declared], rfl⟩
    ancestors := ⟨#[[]], rfl⟩
    descendants := ⟨#[[]], rfl⟩ }

theorem ofView_rewardPool (declared : Bool) :
    CandidateGraph.ofView (rewardPool declared) = .ok (rewardGraph declared) := by
  cases declared <;> cbv

abbrev rewardRound (declared : Bool) : RoundSetting :=
  { selector := (Config.usual 1).toSelector
    graph := rewardGraph declared
    confirmations := rewardFunds
    context := rewardContext declared }

theorem outcome_rewardRound (declared : Bool) :
    (rewardRound declared).outcome = (⟨[0], [], [0], 0⟩, .poolExhausted) := by
  let s := rewardRound declared
  have hcheck : s.selector.limits.check (s.usageOf []) ((rewardGraph declared).reduced [] 0) =
      .fits := by
    cases declared <;> decide +kernel
  have hmembers : (rewardGraph declared).remaining [] 0 = [0] :=
    List.mergeSort_of_pairwise (List.pairwise_singleton _ _)
  have hfound : ((rewardGraph declared).remaining [] 0).findSome? s.refusal? = none := by
    rw [hmembers]
    cases declared <;> decide +kernel
  have hjudge : s.judge (rewardGraph declared).reduced (Ledger.empty.consider 0) 0 =
      (⟨[0], [], [0], 0⟩, none) := by
    rw [RoundSetting.judge_of_admitted hcheck hfound]
    show (Ledger.extend _ ((rewardGraph declared).remaining [] 0), none) = _
    rw [hmembers]
    rfl
  have hbest : s.best? (rewardGraph declared).reduced .empty = some 0 := by
    cases declared <;> decide +kernel
  have hnone : s.best? (rewardGraph declared).reduced ⟨[0], [], [0], 0⟩ = none := by
    cases declared <;> decide +kernel
  show s.greedy (rewardGraph declared).reduced (999999 + 1) .empty = _
  rw [RoundSetting.greedy_succ 999999 hbest, hjudge]
  exact RoundSetting.greedy_of_none 999999 hnone

theorem select_rewardPool (declared : Bool) : ∃ report,
    (Config.usual 1).toSelector.select (rewardPool declared) rewardFunds (rewardContext declared) =
      .ok report ∧ report.draft.transactions = [rewardTx declared] := by
  have hvalid : (Config.usual 1).Valid := Config.validate_eq_ok_iff.mp rfl
  have hselect := (rewardRound declared).select_eq_outcome (ofView_rewardPool declared)
    (hvalid.weightsFit rfl)
  rw [outcome_rewardRound] at hselect
  exact ⟨_, hselect, rfl⟩

theorem Selector.select_mature_rewardPool : ∃ report,
    (Config.usual 1).toSelector.select (rewardPool true) rewardFunds (rewardContext true) =
      .ok report ∧ rewardTx true ∈ report.draft.transactions ∧
    0 + Finality.coinbaseMaturity.toNat ≤ (rewardContext true).targetHeight.toNat := by
  obtain ⟨report, hselect, htransactions⟩ := select_rewardPool true
  have htx : rewardTx true ∈ report.draft.transactions := by simp [htransactions]
  have hmature := select_mature hselect htx rfl List.mem_cons_self (by decide)
    (c := ⟨0, 0, true⟩) rfl rfl
  exact ⟨report, hselect, htx, hmature⟩

/-- Where the pool does not say that a transaction spends a block reward, the gate does not look at
the age of the reward. -/
theorem Selector.select_rewardPool_immature : ∃ report tx input c,
    (Config.usual 1).toSelector.select (rewardPool false) rewardFunds (rewardContext false) =
      .ok report ∧ tx ∈ report.draft.transactions ∧ input ∈ tx.inputs ∧
    (∀ other ∈ (rewardPool false).candidates, other.hash ≠ input.prevout.hash) ∧
    rewardFunds input.prevout = some c ∧ c.isCoinbase = true ∧
    ¬c.height.toNat + Finality.coinbaseMaturity.toNat ≤ (rewardContext false).targetHeight.toNat := by
  obtain ⟨report, hselect, htransactions⟩ := select_rewardPool false
  have htx : rewardTx false ∈ report.draft.transactions := by simp [htransactions]
  exact ⟨report, _, ⟨⟨⟨9⟩, 0⟩, finalSequence⟩, ⟨0, 0, true⟩, hselect, htx, List.mem_cons_self,
    by decide, rfl, rfl, by decide⟩

end BlockProduction

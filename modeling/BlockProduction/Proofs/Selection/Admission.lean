import BlockProduction.Proofs.Selection.Rerun

/-!
# Who may stand in a block

The gate finds the confirmation of every output that a transaction spends and
puts the rules of finality to it.  Said of the pool and the chain alone: whoever
is included spends nothing but candidates and confirmed outputs and breaks no
rule, and whoever is refused breaks the rule that is told, or spends an output
that is nowhere.
-/

namespace BlockProduction

namespace PoolView

variable (view : PoolView) (confirmations : Confirmations) (context : RoundContext)

/-- The confirmation that an input is judged by: outputs of candidates count as confirmed in the
block itself, all others as the chain tells. -/
def Confirms (input : TxInput) (c : Confirmation) : Prop :=
  if input.prevout.hash ∈ view.hashes then
    c = ⟨context.targetHeight, context.tip.medianTimePast, false⟩
  else confirmations input.prevout = some c

/-- Some output that a transaction spends is neither a candidate's nor confirmed. -/
def Lacks (tx : Candidate) : Prop :=
  ∃ input ∈ tx.inputs, input.prevout.hash ∉ view.hashes ∧ confirmations input.prevout = none

/-- Every output that a transaction spends has a confirmation, and by these the transaction breaks
the given rule, or none. -/
def Judges (flags : LockFlags) (tx : Candidate) (verdict : Option Finality.Failure) : Prop :=
  ∃ confirmed, List.Forall₂ (view.Confirms confirmations context) tx.inputs confirmed ∧
    Finality.failure? tx flags (context.cutoff flags)
      ⟨context.targetHeight, context.tip.medianTimePast, confirmed⟩ = verdict

variable {view confirmations context}

/-- A transaction is judged in one way. -/
theorem Judges.verdict_eq {flags : LockFlags} {tx : Candidate}
    {verdict other : Option Finality.Failure}
    (h : view.Judges confirmations context flags tx verdict)
    (hother : view.Judges confirmations context flags tx other) : verdict = other := by
  obtain ⟨confirmed, hconfirmed, rfl⟩ := h
  obtain ⟨again, hagain, rfl⟩ := hother
  have hunique : Relator.RightUnique (view.Confirms confirmations context) := by
    intro input c d hc hd
    unfold Confirms at hc hd
    split at hc
    · simp_all
    · simp_all
  rw [hunique.forall₂ hconfirmed hagain]

end PoolView

/-- Everybody in the block passes the gate, and whoever the gate has refused fails it in the way
that is told. -/
structure SelectionReport.Gated (report : SelectionReport) (view : PoolView)
    (confirmations : Confirmations) (context : RoundContext) (flags : LockFlags) : Prop where
  confirmed : ∀ tx ∈ report.draft.transactions, ∀ input ∈ tx.inputs,
    input.prevout.hash ∉ view.hashes → (confirmations input.prevout).isSome = true
  admissible : ∀ tx ∈ report.draft.transactions, view.Judges confirmations context flags tx none
  inadmissible : ∀ skip ∈ report.skipped, ∀ failure, skip.reason = .finality failure →
    ∃ tx ∈ view.candidates, tx.hash = skip.hash ∧
      view.Judges confirmations context flags tx (some failure)
  unfunded : ∀ skip ∈ report.skipped, skip.reason = .missingInputs →
    ∃ tx ∈ view.candidates, tx.hash = skip.hash ∧ view.Lacks confirmations tx

namespace RoundSetting

variable {s : RoundSetting} {view : PoolView} {tx : Candidate} {input : TxInput}

section

variable (h : s.graph.Represents view)
include h

theorem confirmation?_eq (input : TxInput) :
    s.confirmation? input = if input.prevout.hash ∈ view.hashes then
      some ⟨s.context.targetHeight, s.context.tip.medianTimePast, false⟩
    else s.confirmations input.prevout := by
  unfold confirmation?
  simp only [CandidateGraph.idOf?_isSome_iff, h.mem_hashes_iff]

theorem confirmation?_eq_some_iff {c : Confirmation} : s.confirmation? input = some c ↔
    view.Confirms s.confirmations s.context input c := by
  rw [confirmation?_eq h, PoolView.Confirms]
  split
  · rw [Option.some_inj, eq_comm]
  · rfl

theorem confirmation?_eq_none_iff : s.confirmation? input = none ↔
    input.prevout.hash ∉ view.hashes ∧ s.confirmations input.prevout = none := by
  rw [confirmation?_eq h]
  split
  · simp_all
  · simp_all

/-- The gate refuses a transaction for want of an output when one is missing. -/
theorem gate?_eq_missingInputs_iff :
    s.gate? tx = some .missingInputs ↔ view.Lacks s.confirmations tx := by
  have hlacks : view.Lacks s.confirmations tx ↔ tx.inputs.mapM s.confirmation? = none := by
    simp only [PoolView.Lacks, mapM_eq_none_iff, confirmation?_eq_none_iff h]
  rw [hlacks, gate?]
  cases tx.inputs.mapM s.confirmation? with
  | none => simp
  | some confirmed => simp

/-- Otherwise the gate tells the first rule that the transaction breaks. -/
theorem gate?_eq_iff {verdict : Option Finality.Failure} :
    s.gate? tx = verdict.map .finality ↔
      view.Judges s.confirmations s.context s.selector.flags tx verdict := by
  have hconfirms : ∀ confirmed, List.Forall₂ (view.Confirms s.confirmations s.context) tx.inputs
      confirmed ↔ tx.inputs.mapM s.confirmation? = some confirmed := by
    intro confirmed
    simp only [mapM_eq_some_iff, confirmation?_eq_some_iff h]
  have hinjective : Function.Injective (Option.map SkipReason.finality) :=
    Option.map_injective fun _ _ heq => by cases heq; rfl
  simp only [PoolView.Judges, hconfirms, gate?]
  cases tx.inputs.mapM s.confirmation? with
  | none => cases verdict <;> simp
  | some confirmed => simp [hinjective.eq_iff]

end

variable {l : Ledger s.graph.size} {stop : StopReason}

/-- A skip that the gate has caused is one of a candidate that the gate refuses. -/
theorem Refused.exists_candidate (h : Refused l) (hrepresents : s.graph.Represents view)
    {skip : Skip} (hskip : skip ∈ (s.reportOf l stop).skipped)
    (hreason : skip.reason.Inadmissible) :
    ∃ tx ∈ view.candidates, tx.hash = skip.hash ∧ s.gate? tx = some skip.reason := by
  obtain ⟨i, hi⟩ := List.getElem?_of_mem hskip
  obtain ⟨id, hentry, hhash⟩ := entry_of_skipped hi
  have hgate := h _ (List.mem_of_getElem? hentry) hreason
  exact ⟨s.graph.tx id, hrepresents.mem_candidates_iff.mpr ⟨id, rfl⟩, hhash, hgate⟩

theorem gated_outcome (hview : CandidateGraph.ofView view = .ok s.graph) :
    (s.reportOf s.outcome.1 s.outcome.2).Gated view s.confirmations s.context s.selector.flags := by
  have hrepresents := CandidateGraph.represents_of_ofView hview
  have hadmitted : ∀ tx ∈ (s.reportOf s.outcome.1 s.outcome.2).draft.transactions,
      s.gate? tx = none := by
    intro tx htx
    obtain ⟨id, hid, rfl⟩ := List.mem_map.mp htx
    exact admitted_outcome s id hid
  refine ⟨?_, ?_, ?_, ?_⟩
  · intro tx htx input hinput hforeign
    rcases confirmed_of_gate? (hadmitted tx htx) hinput with hknown | hconfirmed
    · exact absurd (hrepresents.mem_hashes_iff.mpr (CandidateGraph.idOf?_isSome_iff.mp hknown))
        hforeign
    · exact hconfirmed
  · intro tx htx
    exact (gate?_eq_iff hrepresents).mp (hadmitted tx htx)
  · intro skip hskip failure hreason
    obtain ⟨tx, htx, hhash, hgate⟩ := (refused_outcome s).exists_candidate hrepresents hskip
      (by rw [hreason]; exact trivial)
    rw [hreason] at hgate
    exact ⟨tx, htx, hhash, (gate?_eq_iff hrepresents).mp hgate⟩
  · intro skip hskip hreason
    obtain ⟨tx, htx, hhash, hgate⟩ := (refused_outcome s).exists_candidate hrepresents hskip
      (by rw [hreason]; exact trivial)
    rw [hreason] at hgate
    exact ⟨tx, htx, hhash, (gate?_eq_missingInputs_iff hrepresents).mp hgate⟩

end RoundSetting

theorem Config.select_gated {config : Config} {view : PoolView}
    (hconfig : config.validate = .ok ()) (hview : view.Accepted) (confirmations : Confirmations)
    (context : RoundContext) :
    ∃ report, config.toSelector.select view confirmations context = .ok report ∧
      report.Gated view confirmations context config.selector.lockTimeFlags := by
  obtain ⟨graph, hgraph⟩ := hview
  let s : RoundSetting := { selector := config.toSelector, graph, confirmations, context }
  have hweights : s.WeightsFit := (Config.validate_eq_ok_iff.mp hconfig).weightsFit rfl
  exact ⟨_, s.select_eq_outcome hgraph hweights, RoundSetting.gated_outcome hgraph⟩

/-- The block has the plain candidate, and the first one spends an output that is nowhere. -/
theorem Config.select_gated_decoyPool :
    Config.narrow.validate = .ok () ∧ decoyPool.Accepted ∧
    ∃ report, Config.narrow.toSelector.select decoyPool familyFunds default = .ok report ∧
      report.draft.hashes = [⟨4⟩] ∧ (⟨⟨1⟩, .missingInputs⟩ : Skip) ∈ report.skipped ∧
      report.Gated decoyPool familyFunds default Config.narrow.selector.lockTimeFlags := by
  have hselect := (narrowRound decoyGraph).select_eq_outcome ofView_decoyPool
    (Config.valid_narrow.weightsFit rfl)
  rw [outcome_decoyGraph] at hselect
  have hconfig : Config.narrow.validate = .ok () := rfl
  obtain ⟨report, hreport, hgated⟩ :=
    Config.select_gated hconfig decoyPool_accepted familyFunds default
  obtain rfl := Except.ok.inj (hselect.symm.trans hreport)
  exact ⟨hconfig, decoyPool_accepted, _, hselect, rfl, List.mem_cons_self, hgated⟩

end BlockProduction

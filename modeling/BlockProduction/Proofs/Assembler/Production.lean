import BlockProduction.Assembler.Service
import BlockProduction.Proofs.Mining.Soundness
import BlockProduction.Proofs.Selection.Vouched

/-!
# Producing blocks

A block is submitted only after a round has given a valid template and a search
has solved it.  What is reported for an accepted block is read off the report of
the round, not off the block, and still says what the block includes and which
tip it extends.
-/

namespace BlockProduction

/-! ## Rounds -/

theorem Draft.header_of_finalize {draft : Draft} {terms : CoinbaseTerms} {t : Template}
    (h : draft.finalize terms = .ok t) : t.header.prevHash = draft.context.tip.hash ∧
      t.header.bits = draft.context.tip.nextBits ∧ t.height = draft.context.targetHeight ∧
      t.transactions = draft.transactions := by
  unfold finalize at h
  dsimp only at h
  split at h
  · nomatch h
  · cases h
    exact ⟨rfl, rfl, rfl, rfl⟩

/-- A valid template above a tip, with a batch that tells what it includes. -/
structure AssembledTemplate.Extends (t : AssembledTemplate) (config : Config) (tip : ChainTip) :
    Prop where
  valid : t.template.validate config.limits config.consensus.halvingInterval = .ok ()
  prevHash_eq : t.template.header.prevHash = tip.hash
  bits_eq : t.template.header.bits = tip.nextBits
  height_eq : t.template.height = tip.targetHeight
  inclusion_eq : t.inclusion = ⟨tip.hash, tip.targetHeight, t.template.selectedHashes⟩

namespace Assembler

variable {a : Assembler} {ports : Ports} {t : AssembledTemplate}

theorem selectRound_extends {round : Nat} (h : a.selectRound ports round = .ok t) :
    ∃ tip, ports.tip = .ok tip ∧ t.Extends a.config tip := by
  obtain ⟨tip, htip, h⟩ := Error.bind_eq_ok_iff.mp h
  obtain ⟨report, hselect, h⟩ := Error.bind_eq_ok_iff.mp h
  obtain ⟨template, hfinalize, h⟩ := Error.bind_eq_ok_iff.mp h
  obtain ⟨⟨⟩, hvalid, h⟩ := Error.bind_eq_ok_iff.mp h
  cases h
  have hnamed : ports.tip = .ok tip := by
    cases hports : ports.tip with
    | error e =>
        rw [hports] at htip
        nomatch htip
    | ok other =>
        rw [hports] at htip
        cases htip
        rfl
  obtain ⟨-, -, hcontext, -⟩ := Selector.vouched_select hselect
  obtain ⟨hprev, hbits, hheight, htransactions⟩ := Draft.header_of_finalize hfinalize
  rw [hcontext] at hprev hbits hheight
  refine ⟨tip, hnamed, hvalid, hprev, hbits, hheight, ?_⟩
  show report.inclusion = _
  rw [SelectionReport.inclusion, hcontext, Template.selectedHashes, htransactions]
  rfl

/-- A round counts whatever comes of it, and does not touch the configuration. -/
theorem build_eq (a : Assembler) (ports : Ports) :
    (a.build ports).1 = a.selectRound ports a.roundsStarted ∧
      (a.build ports).2.config = a.config := by
  unfold build
  dsimp only
  have hsame : selectRound { a with roundsStarted := a.roundsStarted + 1 } ports a.roundsStarted =
      a.selectRound ports a.roundsStarted := rfl
  rw [hsame]
  cases a.selectRound ports a.roundsStarted with
  | error e => exact ⟨rfl, rfl⟩
  | ok t => exact ⟨rfl, rfl⟩

end Assembler

/-! ## Searches -/

theorem MiningJob.solved_of_outcome {job : MiningJob} {workers : Nat} {range : NonceRange}
    {caller : CancelFlag} {turns : List Search.Turn} {flags : FlagStore} {mined : Mined}
    (h : ((Search.start job workers range caller flags).run turns).outcome = .ok mined) :
    job.Solved range mined := by
  have hstart : Search.Finds (job.Solved range)
      (Search.start job workers range caller flags).workers := by
    intro work hwork found hfound
    obtain ⟨part, hpart, rfl⟩ := List.mem_map.mp hwork
    obtain ⟨hfirst, hlast⟩ := NonceRange.within_of_mem_split hpart
    exact (worker_solved hfound).widen hfirst hlast
  obtain ⟨winner, hwinner, heq⟩ := (hstart.run turns).outcome h
  rw [heq]
  exact hwinner.recount _ _

/-- A block with a proof of work for its template under the easiest allowed target. -/
structure MinedBlock.Proved (block : MinedBlock) (powLimit : Word256) : Prop where
  header_eq : block.header = { block.template.header with
    nonce := block.header.nonce, solution := block.header.solution }
  hash_eq : block.hash = block.header.hash
  meets : CompactTarget.meets block.hash block.header.bits powLimit = true

namespace Assembler

variable {a : Assembler} {ports : Ports} {t : AssembledTemplate} {template : Template}
  {block : MinedBlock}

theorem mine_proved (h : (a.mine ports template).1 = .ok block) :
    block.template = template ∧ block.Proved a.config.consensus.powLimit := by
  unfold mine beginSearch claim at h
  cases hslot : a.slot? with
  | some flag =>
      rw [hslot] at h
      nomatch h
  | none =>
      rw [hslot] at h
      dsimp only [endSearch, search] at h
      generalize hresult : (Search.run _ ports.turns).outcome = result at h
      cases result with
      | error e => nomatch h
      | ok mined =>
          cases h
          have hsolved := MiningJob.solved_of_outcome hresult
          refine ⟨rfl, hsolved.header_eq, hsolved.hash_eq, ?_⟩
          -- the search does not touch the bits
          have hbits : mined.header.bits = template.header.bits := by rw [hsolved.header_eq]
          show CompactTarget.meets mined.hash mined.header.bits _ = true
          rw [hbits]
          exact hsolved.meets

end Assembler

/-! ## Handing over -/

/-- A block with a valid template above a tip and a proof of work. -/
structure MinedBlock.Completes (block : MinedBlock) (config : Config) (tip : ChainTip) : Prop
    extends block.Proved config.consensus.powLimit where
  valid : block.template.validate config.limits config.consensus.halvingInterval = .ok ()
  prevHash_eq : block.header.prevHash = tip.hash
  bits_eq : block.header.bits = tip.nextBits
  height_eq : block.template.height = tip.targetHeight

/-- What a block includes and which tip it extends, read off the block. -/
def MinedBlock.inclusion (block : MinedBlock) : Inclusion :=
  ⟨block.header.prevHash, block.template.height, block.template.selectedHashes⟩

/-- Whether the submission of a block succeeds and the block is accepted. -/
def Ports.accepts (ports : Ports) (block : MinedBlock) : Bool :=
  match ports.submit block with
  | .ok receipt => receipt.accepted
  | .error _ => false

namespace Assembler

variable {t : AssembledTemplate} {config : Config} {tip : ChainTip} {block : MinedBlock}

theorem completes_of_proved (ht : t.Extends config tip) (htemplate : block.template = t.template)
    (hproved : block.Proved config.consensus.powLimit) : block.Completes config tip where
  toProved := hproved
  valid := by rw [htemplate, ht.valid]
  prevHash_eq := by rw [hproved.header_eq, htemplate, ht.prevHash_eq]
  bits_eq := by rw [hproved.header_eq, htemplate, ht.bits_eq]
  height_eq := by rw [htemplate, ht.height_eq]

theorem inclusion_eq_of_completes (ht : t.Extends config tip)
    (htemplate : block.template = t.template) (hblock : block.Completes config tip) :
    t.inclusion = block.inclusion := by
  rw [ht.inclusion_eq, MinedBlock.inclusion, hblock.prevHash_eq, hblock.height_eq, htemplate]

theorem handOver_snd (ports : Ports) (t : AssembledTemplate) (block : MinedBlock) :
    (handOver ports t block).2 =
      .submitted block :: if ports.accepts block then [.reported t.inclusion] else [] := by
  unfold handOver Ports.accepts
  cases ports.submit block with
  | error e => rfl
  | ok receipt =>
      cases haccepted : receipt.accepted with
      | false => simp [haccepted]
      | true =>
          cases ports.report t.inclusion with
          | error e => simp [haccepted]
          | ok reported => simp [haccepted]

/-- Whatever the pool, the chain, the solver, the submitter and the reporter do, nothing is handed
over if the round or the search fails.  Else one block is submitted, which completes the template of
the round above the tip of the round, and what it includes is reported, once, exactly if it is
accepted. -/
theorem produce_handsOver (a : Assembler) (ports : Ports) :
    ((∃ e, (a.produce ports).1 = (.error e, [])) ∧
      ((∃ e, (a.build ports).1 = .error e) ∨ ∃ t e, (a.build ports).1 = .ok t ∧
        ((a.build ports).2.mine ports t.template).1 = .error e)) ∨
    ∃ tip t block, ports.tip = .ok tip ∧ (a.build ports).1 = .ok t ∧
      ((a.build ports).2.mine ports t.template).1 = .ok block ∧ block.template = t.template ∧
      block.Completes a.config tip ∧ (a.produce ports).1.2 =
        .submitted block :: if ports.accepts block then [.reported block.inclusion] else [] := by
  obtain ⟨hround, hconfig⟩ := a.build_eq ports
  unfold produce
  cases hbuild : a.build ports with
  | mk result built =>
      rw [hbuild] at hround hconfig
      cases result with
      | error e => exact .inl ⟨⟨e, rfl⟩, .inl ⟨e, rfl⟩⟩
      | ok t =>
          obtain ⟨tip, htip, ht⟩ := selectRound_extends hround.symm
          cases hmine : built.mine ports t.template with
          | mk result mined =>
              have hfirst : (built.mine ports t.template).1 = result := by rw [hmine]
              dsimp only
              rw [hmine]
              cases result with
              | error e => exact .inl ⟨⟨e, rfl⟩, .inr ⟨t, e, rfl, hfirst⟩⟩
              | ok block =>
                  obtain ⟨htemplate, hproved⟩ := mine_proved hfirst
                  rw [hconfig] at hproved
                  have hblock := completes_of_proved ht htemplate hproved
                  have hinclusion := inclusion_eq_of_completes ht htemplate hblock
                  refine .inr ⟨tip, t, block, htip, rfl, hfirst, htemplate, hblock, ?_⟩
                  rw [← hinclusion]
                  exact handOver_snd ports t block

end Assembler

end BlockProduction

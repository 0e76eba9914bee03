import BlockProduction.Proofs.Assembler.Production
import BlockProduction.Proofs.Selection.Validity

/-!
# Histories of an assembler

An assembler is told to build, to mine, to produce and to cancel, in any order
and with whatever ports.  After each call no search holds the slot, and the
status and the counters tell of the rounds that gave a template and of the
searches that found a block, of all of them and of nothing else.
-/

namespace BlockProduction

/-! ## Counters -/

/-- The kinds of reasons that are counted apart. -/
inductive SkipReason.Kind where
  | feeRate
  | limits
  | finality
  | missingInputs
  | ancestorSkipped
  deriving DecidableEq

def SkipReason.kind : SkipReason → Kind
  | .feeRate .. => .feeRate
  | .limits .. => .limits
  | .finality _ => .finality
  | .missingInputs => .missingInputs
  | .ancestorSkipped _ => .ancestorSkipped

/-- The counters of rounds and blocks, without those of effort and time. -/
inductive Counter where
  | rounds
  | transactions
  | fees
  | rejections (kind : SkipReason.Kind)
  | blocks

namespace Counter

def read (m : Metrics) : Counter → UInt64
  | .rounds => m.roundsCompleted
  | .transactions => m.transactionsIncluded
  | .fees => m.totalFees
  | .rejections .feeRate => m.rejectedFeeRate
  | .rejections .limits => m.rejectedBudget
  | .rejections .finality => m.rejectedFinality
  | .rejections .missingInputs => m.rejectedMissingInputs
  | .rejections .ancestorSkipped => m.rejectedDescendants
  | .blocks => m.blocksMined

/-- What a counter should come to. -/
def total (rounds : List AssembledTemplate) (blocks : List MinedBlock) : Counter → Nat
  | .rounds => rounds.length
  | .transactions => (rounds.map fun t => t.template.transactions.length).sum
  | .fees => (rounds.map fun t => t.template.totalFees.toNat).sum
  | .rejections kind => (rounds.map fun t => t.skipped.countP fun s => s.reason.kind = kind).sum
  | .blocks => blocks.length

theorem total_append (c : Counter) (rounds more : List AssembledTemplate)
    (blocks further : List MinedBlock) :
    c.total (rounds ++ more) (blocks ++ further) =
      c.total rounds blocks + c.total more further := by
  cases c <;> simp [total]

theorem read_add_nothing (c : Counter) (m : Metrics) :
    c.read m = c.read m + UInt64.ofNat (c.total [] []) := by
  cases c <;> simp [total]

/-- What skipped candidates add to a counter. -/
def ofSkips (skips : List Skip) : Counter → Nat
  | .rejections kind => skips.countP fun s => s.reason.kind = kind
  | _ => 0

theorem ofSkips_cons (c : Counter) (skip : Skip) (skips : List Skip) :
    c.ofSkips (skip :: skips) = c.ofSkips [skip] + c.ofSkips skips := by
  cases c with
  | rejections kind =>
      show ([skip] ++ skips).countP _ = [skip].countP _ + skips.countP _
      exact List.countP_append
  | _ => rfl

/-- A skipped candidate counts where its reason belongs, and nowhere else. -/
theorem read_recordSkip (c : Counter) (m : Metrics) (skip : Skip) :
    c.read (m.recordSkip skip.reason) = c.read m + UInt64.ofNat (c.ofSkips [skip]) := by
  obtain ⟨hash, reason⟩ := skip
  cases c with
  | rejections kind =>
      cases reason <;> cases kind <;>
        simp [read, ofSkips, Metrics.recordSkip, SkipReason.kind]
  | _ => cases reason <;> simp [read, ofSkips, Metrics.recordSkip]

theorem read_foldl_recordSkip (c : Counter) (skips : List Skip) (m : Metrics) :
    c.read (skips.foldl (fun m s => m.recordSkip s.reason) m) =
      c.read m + UInt64.ofNat (c.ofSkips skips) := by
  induction skips generalizing m with
  | nil => cases c <;> simp [ofSkips]
  | cons skip skips ih =>
      rw [List.foldl_cons, ih, read_recordSkip, ofSkips_cons c skip skips, UInt64.ofNat_add,
        UInt64.add_assoc]

theorem read_recordTemplate (c : Counter) (m : Metrics) (t : AssembledTemplate) (micros : UInt64) :
    c.read (Assembler.recordTemplate m t micros) = c.read m + UInt64.ofNat (c.total [t] []) := by
  rw [Assembler.recordTemplate, read_foldl_recordSkip]
  cases c with
  | rejections kind => cases kind <;> simp [read, ofSkips, total, Metrics.recordRound]
  | _ => simp [read, ofSkips, total, Metrics.recordRound]

theorem read_recordMining (c : Counter) (m : Metrics) (nonces rejected : Nat) (millis : UInt64) :
    c.read (m.recordMining nonces rejected millis) = c.read m := by
  cases c <;> rfl

theorem read_recordCancelled (c : Counter) (m : Metrics) :
    c.read m.recordCancelled = c.read m := by
  cases c <;> rfl

theorem read_recordBlock (c : Counter) (m : Metrics) (block : MinedBlock) :
    c.read m.recordBlock = c.read m + UInt64.ofNat (c.total [] [block]) := by
  cases c with
  | rejections kind => cases kind <;> simp [read, total, Metrics.recordBlock]
  | _ => simp [read, total, Metrics.recordBlock]

end Counter

/-! ## Calls -/

/-- A call of an operation, with the ports as they behave during the call. -/
inductive Call where
  | build (ports : Ports)
  | mine (ports : Ports) (template : Template)
  | produce (ports : Ports)
  | cancel

namespace Assembler

/-- The assembler once a call has returned. -/
def after (a : Assembler) : Call → Assembler
  | .build ports => (a.build ports).2
  | .mine ports template => (a.mine ports template).2
  | .produce ports => (a.produce ports).2
  | .cancel => a.cancel.2

/-- The template that a call gives by a round, if any. -/
def roundOf? (a : Assembler) : Call → Option AssembledTemplate
  | .build ports => (a.build ports).1.toOption
  | .mine .. => none
  | .produce ports => (a.build ports).1.toOption
  | .cancel => none

/-- The block that a call finds by a search, if any. -/
def blockOf? (a : Assembler) : Call → Option MinedBlock
  | .build _ => none
  | .mine ports template => (a.mine ports template).1.toOption
  | .produce ports =>
      match a.build ports with
      | (.error _, _) => none
      | (.ok t, built) => (built.mine ports t.template).1.toOption
  | .cancel => none

variable {a : Assembler} {ports : Ports}

/-- What a round does: one that fails leaves nothing but its number. -/
theorem build_cases (a : Assembler) (ports : Ports) :
    (∃ e, a.build ports = (.error e, { a with roundsStarted := a.roundsStarted + 1 })) ∨
    ∃ t, a.build ports = (.ok t,
      { a with
        roundsStarted := a.roundsStarted + 1
        metrics := recordTemplate a.metrics t (ports.elapsed / 1000)
        status :=
          { a.status with
            roundsCompleted := a.status.roundsCompleted + 1
            lastRound? := some a.roundsStarted
            lastTemplateHeight? := some t.template.height } }) := by
  unfold build
  dsimp only
  cases selectRound { a with roundsStarted := a.roundsStarted + 1 } ports a.roundsStarted with
  | error e => exact .inl ⟨e, rfl⟩
  | ok t => exact .inr ⟨t, rfl⟩

/-- What a search needs, and what is told of searches, is left as it is. -/
structure KeepsSearches (a next : Assembler) : Prop where
  config_eq : next.config = a.config
  flags_eq : next.flags = a.flags
  slot_eq : next.slot? = a.slot?
  mining_eq : next.status.mining = a.status.mining
  miningState_eq : next.status.miningState = a.status.miningState

theorem build_keepsSearches (a : Assembler) (ports : Ports) :
    KeepsSearches a (a.build ports).2 := by
  rcases a.build_cases ports with ⟨e, hbuild⟩ | ⟨t, hbuild⟩
  · rw [hbuild]
    exact ⟨rfl, rfl, rfl, rfl, rfl⟩
  · rw [hbuild]
    exact ⟨rfl, rfl, rfl, rfl, rfl⟩

/-- A search that finds the slot free gives it back before it records its result. -/
theorem mine_eq (hslot : a.slot? = none) (ports : Ports) (template : Template) :
    ∃ flags result, a.mine ports template =
      (result.map fun mined => ⟨template, mined.header, mined.hash⟩,
        { a with
          slot? := none
          flags
          status := { a.status with mining := true, miningState := .hashing } }.conclude
            ports result) := by
  unfold mine beginSearch claim
  rw [hslot]
  exact ⟨_, _, rfl⟩

/-! ## What calls add -/

/-- What a completed call adds to the status and the counters: a round that gave a template, a
block that was found, or neither.  No search is left behind. -/
structure Adds (a next : Assembler) (round? : Option AssembledTemplate)
    (block? : Option MinedBlock) : Prop where
  slot_free : next.slot? = none
  not_mining : next.status.mining = false
  rounds_eq : next.status.roundsCompleted = a.status.roundsCompleted + round?.toList.length
  blocks_eq : next.status.blocksMined = a.status.blocksMined + block?.toList.length
  lastBlock_eq : next.status.lastBlockHash? = (block?.map (·.hash)).or a.status.lastBlockHash?
  counted : ∀ c : Counter, c.read next.metrics =
    c.read a.metrics + UInt64.ofNat (c.total round?.toList block?.toList)

section

variable (hslot : a.slot? = none) (hidle : a.status.mining = false)
include hslot hidle

theorem adds_build (ports : Ports) :
    a.Adds (a.build ports).2 (a.build ports).1.toOption none := by
  rcases a.build_cases ports with ⟨e, hbuild⟩ | ⟨t, hbuild⟩
  · rw [hbuild]
    exact ⟨hslot, hidle, rfl, rfl, rfl, fun c => c.read_add_nothing _⟩
  · rw [hbuild]
    exact ⟨hslot, hidle, rfl, rfl, rfl, fun c => c.read_recordTemplate _ t _⟩

end

/-- Whatever a search comes to, recording it ends the search. -/
theorem adds_conclude (hslot : a.slot? = none) (ports : Ports) (template : Template)
    (result : Except Error Mined) : a.Adds (a.conclude ports result) none
      (result.map fun mined => MinedBlock.mk template mined.header mined.hash).toOption := by
  unfold conclude
  split
  · rename_i mined
    refine ⟨hslot, rfl, rfl, rfl, rfl, ?_⟩
    intro c
    have hblock := c.read_recordBlock (a.metrics.recordMining mined.noncesTried
      mined.solutionsRejected (ports.elapsed / 1000000)) ⟨template, mined.header, mined.hash⟩
    rwa [c.read_recordMining] at hblock
  · refine ⟨hslot, rfl, rfl, rfl, rfl, ?_⟩
    intro c
    rw [c.read_recordCancelled, c.read_recordMining]
    exact c.read_add_nothing _
  · refine ⟨hslot, rfl, rfl, rfl, rfl, ?_⟩
    intro c
    rw [c.read_recordMining]
    exact c.read_add_nothing _
  · exact ⟨hslot, rfl, rfl, rfl, rfl, fun c => c.read_add_nothing _⟩

theorem adds_mine (hslot : a.slot? = none) (ports : Ports) (template : Template) :
    a.Adds (a.mine ports template).2 none (a.mine ports template).1.toOption := by
  obtain ⟨flags, result, hmine⟩ := mine_eq hslot ports template
  rw [hmine]
  -- to mark the search changes nothing that is counted
  obtain ⟨hfree, hdone, hrounds, hblocks, hlast, hcounted⟩ := adds_conclude
    (a := { a with
      slot? := none
      flags
      status := { a.status with mining := true, miningState := .hashing } })
    rfl ports template result
  exact ⟨hfree, hdone, hrounds, hblocks, hlast, hcounted⟩

/-- A round and the search of its template. -/
theorem Adds.trans {built next : Assembler} {round? : Option AssembledTemplate}
    {block? : Option MinedBlock} (hround : a.Adds built round? none)
    (hsearch : built.Adds next none block?) : a.Adds next round? block? where
  slot_free := hsearch.slot_free
  not_mining := hsearch.not_mining
  rounds_eq := by
    rw [hsearch.rounds_eq, hround.rounds_eq]
    rfl
  blocks_eq := by
    rw [hsearch.blocks_eq, hround.blocks_eq]
    rfl
  lastBlock_eq := by
    rw [hsearch.lastBlock_eq, hround.lastBlock_eq]
    rfl
  counted := by
    intro c
    have hsplit := c.total_append round?.toList [] [] block?.toList
    rw [List.append_nil, List.nil_append] at hsplit
    rw [hsearch.counted, hround.counted, hsplit, UInt64.ofNat_add, UInt64.add_assoc]
    rfl

section

variable (hslot : a.slot? = none) (hidle : a.status.mining = false)
include hslot hidle

theorem adds_produce (ports : Ports) :
    a.Adds (a.produce ports).2 (a.roundOf? (.produce ports)) (a.blockOf? (.produce ports)) := by
  have hround := adds_build hslot hidle ports
  unfold produce roundOf? blockOf?
  dsimp only
  cases hbuild : a.build ports with
  | mk result built =>
      rw [hbuild] at hround
      cases result with
      | error e => exact hround
      | ok t =>
          have hsearch := adds_mine hround.slot_free ports t.template
          dsimp only at hsearch ⊢
          cases hmine : built.mine ports t.template with
          | mk result mined =>
              rw [hmine] at hsearch
              cases result with
              | error e => exact hround.trans hsearch
              | ok block => exact hround.trans hsearch

theorem adds_after (call : Call) : a.Adds (a.after call) (a.roundOf? call) (a.blockOf? call) := by
  cases call with
  | build ports => exact adds_build hslot hidle ports
  | mine ports template => exact adds_mine hslot ports template
  | produce ports => exact adds_produce hslot hidle ports
  | cancel =>
      unfold after cancel
      rw [hslot]
      exact ⟨hslot, hidle, rfl, rfl, rfl, fun c => c.read_add_nothing _⟩

end

end Assembler

/-! ## Histories -/

/-- An assembler with the templates and the blocks that it has given so far, in order. -/
structure History where
  assembler : Assembler
  rounds : List AssembledTemplate
  blocks : List MinedBlock

namespace History

def start (a : Assembler) : History :=
  ⟨a, [], []⟩

def step (h : History) (call : Call) : History :=
  { assembler := h.assembler.after call
    rounds := h.rounds ++ (h.assembler.roundOf? call).toList
    blocks := h.blocks ++ (h.assembler.blockOf? call).toList }

/-- One call after the other. -/
def run (a : Assembler) (calls : List Call) : History :=
  calls.foldl step (start a)

/-- Between calls nothing runs, and the books are balanced. -/
structure Balanced (h : History) : Prop where
  slot_free : h.assembler.slot? = none
  not_mining : h.assembler.status.mining = false
  rounds_eq : h.assembler.status.roundsCompleted = h.rounds.length
  blocks_eq : h.assembler.status.blocksMined = h.blocks.length
  lastBlock_eq : h.assembler.status.lastBlockHash? = h.blocks.getLast?.map (·.hash)
  counted : ∀ c : Counter, c.read h.assembler.metrics = UInt64.ofNat (c.total h.rounds h.blocks)

variable {h : History}

theorem balanced_start {a : Assembler} {config : Config} (ha : Assembler.ofConfig config = .ok a) :
    (start a).Balanced := by
  unfold Assembler.ofConfig at ha
  split at ha
  · nomatch ha
  · cases ha
    refine ⟨rfl, rfl, rfl, rfl, rfl, ?_⟩
    intro c
    cases c with
    | rejections kind => cases kind <;> rfl
    | _ => rfl

theorem Balanced.step (hb : h.Balanced) (call : Call) : (h.step call).Balanced := by
  have hadds := Assembler.adds_after hb.slot_free hb.not_mining call
  refine ⟨hadds.slot_free, hadds.not_mining, ?_, ?_, ?_, ?_⟩
  · show (h.assembler.after call).status.roundsCompleted = (h.rounds ++ _).length
    rw [hadds.rounds_eq, hb.rounds_eq, List.length_append]
  · show (h.assembler.after call).status.blocksMined = (h.blocks ++ _).length
    rw [hadds.blocks_eq, hb.blocks_eq, List.length_append]
  · show (h.assembler.after call).status.lastBlockHash? = (h.blocks ++ _).getLast?.map _
    rw [hadds.lastBlock_eq, hb.lastBlock_eq]
    cases h.assembler.blockOf? call with
    | none => simp
    | some block => simp
  · intro c
    show c.read (h.assembler.after call).metrics =
      UInt64.ofNat (c.total (h.rounds ++ _) (h.blocks ++ _))
    rw [hadds.counted, hb.counted, Counter.total_append, UInt64.ofNat_add]

theorem balanced_run {a : Assembler} (ha : (start a).Balanced) (calls : List Call) :
    (run a calls).Balanced :=
  List.foldlRecOn calls step ha fun _ hb call _ => hb.step call

/-- Between calls nothing runs and the books are balanced, so there is nothing to cancel, every
counter that has not run over is exact, and a round that fails leaves no trace in the books. -/
structure Accounts (h : History) : Prop extends h.Balanced where
  cancel_eq : h.assembler.cancel = (false, h.assembler)
  exact : ∀ c : Counter, c.total h.rounds h.blocks < 2 ^ 64 →
    (c.read h.assembler.metrics).toNat = c.total h.rounds h.blocks
  failed_build : ∀ {ports e}, (h.assembler.build ports).1 = .error e →
    (h.assembler.build ports).2.status = h.assembler.status ∧
      (h.assembler.build ports).2.metrics = h.assembler.metrics

theorem Balanced.accounts (hb : h.Balanced) : h.Accounts where
  toBalanced := hb
  cancel_eq := by
    unfold Assembler.cancel
    rw [hb.slot_free]
  exact := by
    intro c hfits
    rw [hb.counted, UInt64.toNat_ofNat', Nat.mod_eq_of_lt hfits]
  failed_build := by
    intro ports e herror
    rcases h.assembler.build_cases ports with ⟨e, hbuild⟩ | ⟨t, hbuild⟩
    · rw [hbuild]
      exact ⟨rfl, rfl⟩
    · rw [hbuild] at herror
      nomatch herror

end History

/-- Whatever is called, and whatever the ports do during each call. -/
theorem Assembler.history_accounts {config : Config} (hconfig : config.validate = .ok ()) :
    ∃ fresh, Assembler.ofConfig config = .ok fresh ∧
      ∀ calls, (History.run fresh calls).Accounts := by
  cases hfresh : Assembler.ofConfig config with
  | error e =>
      rw [ofConfig, hconfig] at hfresh
      nomatch hfresh
  | ok fresh =>
      refine ⟨fresh, rfl, fun calls => ?_⟩
      exact (History.balanced_run (History.balanced_start hfresh) calls).accounts

/-! ## A round of the family -/

/-- Under a valid configuration a round gives a template if the tip is named, the pool is accepted
and its fees fit into a word. -/
theorem Assembler.exists_selectRound {a : Assembler} {ports : Ports} {tip : ChainTip}
    (hvalid : a.config.Valid) (htip : ports.tip = .ok tip) (hview : ports.pool.Accepted)
    (hfees : (ports.pool.candidates.map fun tx => tx.fee.toNat).sum + initialSubsidy ≤ maxWord)
    (round : Nat) : ∃ t, a.selectRound ports round = .ok t := by
  obtain ⟨graph, hgraph⟩ := hview
  let s : RoundSetting :=
    ⟨a.config.toSelector, graph, ports.confirmations, roundContext ports tip⟩
  have hselect := s.select_eq_outcome hgraph (hvalid.weightsFit rfl)
  have htotal : s.graph.total .fee s.graph.ids + initialSubsidy ≤ maxWord := by
    rw [(CandidateGraph.represents_of_ofView hgraph).total_ids]
    exact hfees
  obtain ⟨template, hfinalize, hchecked⟩ := RoundSetting.valid_outcome a.config.coinbaseTerms
    (CandidateGraph.consistent_of_ofView hgraph) (hvalid.withinLimits_nil rfl) htotal
  have htipped : ports.tip.mapError chainError = .ok tip := by
    rw [htip]
    rfl
  apply Exists.intro
  apply Error.bind_eq_ok_iff.mpr
  refine ⟨tip, htipped, ?_⟩
  apply Error.bind_eq_ok_iff.mpr
  refine ⟨_, hselect, ?_⟩
  apply Error.bind_eq_ok_iff.mpr
  refine ⟨template, hfinalize, ?_⟩
  exact Error.bind_eq_ok_iff.mpr ⟨(), hchecked, rfl⟩

def familyPorts : Ports :=
  { pool := familyPool
    tip := .ok default
    confirmations := familyFunds
    solver := .null
    turns := []
    submit := fun block => .ok ⟨block.hash, 0, true⟩
    report := fun _ => .ok ()
    now := 0
    elapsed := 0 }

/-- Its header meets the target with the first nonce. -/
def easyTemplate : Template :=
  { (default : Template) with
    header := { (default : Header) with bits := 0x207fffff, time := 2 } }

/-- The only worker takes five steps before all others. -/
def promptPorts : Ports :=
  { familyPorts with turns := List.replicate 5 (.worker 0) }

/-- The search for the proof of work of the easy template. -/
def easySearch : Search :=
  Search.start ⟨.null, easyTemplate.header, (Config.usual 1).consensus.powLimit⟩ 1 .full
    FlagStore.empty.fresh.1 FlagStore.empty.fresh.2

theorem Assembler.mine_easyTemplate {a : Assembler} (hconfig : a.config = .usual 1)
    (hslot : a.slot? = none) (hflags : a.flags = .empty) :
    ∃ block, (a.mine promptPorts easyTemplate).1 = .ok block := by
  have hover : (promptPorts.turns.foldl Search.turn easySearch).isRunning = false := by
    decide +kernel
  have hfound :
      (promptPorts.turns.foldl Search.turn easySearch).outcome.toOption.isSome = true := by
    decide +kernel
  have hmine : (a.mine promptPorts easyTemplate).1 =
      (easySearch.run promptPorts.turns).outcome.map
        fun mined => ⟨easyTemplate, mined.header, mined.hash⟩ := by
    unfold mine beginSearch claim
    rw [hslot, hflags]
    show (Search.run (Search.start ⟨.null, _, a.config.consensus.powLimit⟩
      a.config.mining.workers.toNat .full _ _) _).outcome.map _ = _
    rw [hconfig]
    rfl
  rw [hmine, Search.run_of_over hover]
  cases houtcome : (promptPorts.turns.foldl Search.turn easySearch).outcome with
  | error e =>
      rw [houtcome] at hfound
      nomatch hfound
  | ok mined => exact ⟨_, rfl⟩

/-- A round of the family, and the search for the proof of work of a template. -/
def familyCalls : List Call :=
  [.build familyPorts, .mine promptPorts easyTemplate, .cancel]

/-- The round and the block are in the books. -/
theorem Assembler.history_accounts_familyPorts : (Config.usual 1).validate = .ok () ∧
    ∃ fresh, ofConfig (Config.usual 1) = .ok fresh ∧ (History.run fresh familyCalls).Accounts ∧
      (History.run fresh familyCalls).assembler.status.roundsCompleted = 1 ∧
      (History.run fresh familyCalls).assembler.status.blocksMined = 1 ∧
      (History.run fresh familyCalls).assembler.metrics.blocksMined = 1 := by
  have hconfig : (Config.usual 1).validate = .ok () := rfl
  obtain ⟨fresh, hfresh, haccounts⟩ := history_accounts hconfig
  have hvalid : fresh.config.Valid := by
    cases hfresh
    exact Config.validate_eq_ok_iff.mp hconfig
  have htip : familyPorts.tip = .ok default := rfl
  obtain ⟨t, ht⟩ := exists_selectRound hvalid htip familyPool_accepted (by decide)
    fresh.roundsStarted
  have hbuild : (fresh.build familyPorts).1 = .ok t := (fresh.build_eq familyPorts).1.trans ht
  obtain ⟨block, hblock⟩ : ∃ block,
      ((fresh.build familyPorts).2.mine promptPorts easyTemplate).1 = .ok block := by
    have hkeeps := fresh.build_keepsSearches familyPorts
    cases hfresh
    exact mine_easyTemplate hkeeps.config_eq hkeeps.slot_eq hkeeps.flags_eq
  have hrounds : (History.run fresh familyCalls).rounds = [t] := by
    simp [History.run, History.step, History.start, familyCalls, roundOf?, hbuild, Except.toOption]
  have hblocks : (History.run fresh familyCalls).blocks = [block] := by
    simp [History.run, History.step, History.start, familyCalls, blockOf?, after, hblock,
      Except.toOption]
  have hbooks := haccounts familyCalls
  refine ⟨hconfig, fresh, hfresh, hbooks, ?_, ?_, ?_⟩
  · rw [hbooks.rounds_eq, hrounds, List.length_singleton]
  · rw [hbooks.blocks_eq, hblocks, List.length_singleton]
  · have hcounted := hbooks.counted .blocks
    rwa [hrounds, hblocks] at hcounted

end BlockProduction

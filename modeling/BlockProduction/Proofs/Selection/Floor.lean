import BlockProduction.Proofs.Selection.Permanence

/-!
# The fee floor

The candidate whose package pays best is considered first.  When that package
pays less than the floor, so does everything that is still open, and as long as
the floor is a whole number nothing is included from then on.  A floor that is
rounded down lets light packages pass that pay less than it, and with them in
the block, what remains of a rejected package may pass as well.
-/

namespace BlockProduction

/-- A reason of the fee floor. -/
def SkipReason.IsFloor : SkipReason → Prop
  | .feeRate .. => True
  | _ => False

/-- What remains of a package that the floor has rejected still pays too little, and so does what
remains of a package that was skipped along with one. -/
def SelectionReport.StaysUnderpaid (report : SelectionReport) (view : PoolView) (limits : Limits) :
    Prop :=
  ∀ skip ∈ report.skipped,
    (skip.reason.IsFloor ∨ ∃ other ∈ report.skipped,
      other.reason.IsFloor ∧ skip.reason = .ancestorSkipped other.hash) →
    ∃ required, limits.check report.draft.usage
      (.ofTxs (view.remainder report.draft.hashes skip.hash)) = .underpays required

/-! ## Short packages -/

theorem SkipReason.Inadmissible.not_isFloor {reason : SkipReason} (h : reason.Inadmissible) :
    ¬reason.IsFloor := by
  cases reason with
  | finality failure => exact id
  | missingInputs => exact id
  | feeRate fee weight required => exact h.elim
  | limits weight sigopCost => exact h.elim
  | ancestorSkipped ancestor => exact h.elim

namespace FeeRate

variable {rate : FeeRate} {fee weight : UInt64}

/-- A fee is less than the rate asks for a weight before it is rounded. -/
def Short (rate : FeeRate) (fee weight : UInt64) : Prop :=
  fee.toNat * unitWeight < rate.perUnit.toNat * weight.toNat

theorem short_of_lt_feeFor (h : fee < rate.feeFor weight) : rate.Short fee weight := by
  have hless := UInt64.lt_iff_toNat_lt.mp h
  unfold feeFor at hless
  dsimp only at hless
  unfold Short
  split at hless
  · next hleast =>
    obtain ⟨-, hweight, hrate⟩ := hleast
    have hfee : fee.toNat = 0 := by simpa using hless
    have hrate' := UInt64.lt_iff_toNat_lt.mp hrate
    have hweight' : weight.toNat ≠ 0 := fun hzero => hweight (UInt64.toNat_inj.mp hzero)
    rw [hfee, Nat.zero_mul]
    exact Nat.mul_pos hrate' (Nat.pos_of_ne_zero hweight')
  · rw [clampWord_toNat] at hless
    have hfloor : fee.toNat + 1 ≤ rate.perUnit.toNat * weight.toNat / unitWeight :=
      Nat.lt_of_lt_of_le hless (Nat.min_le_left _ _)
    have hunit : 0 < unitWeight := by decide
    have hmul := (Nat.le_div_iff_mul_le hunit).mp hfloor
    rw [Nat.succ_mul] at hmul
    omega

/-- A floor that need not be rounded asks for more than a short fee. -/
theorem Short.lt_feeFor (h : rate.Short fee weight) (hfee : fee.toNat < maxWord)
    (hwhole : unitWeight ∣ rate.perUnit.toNat * weight.toNat) : fee < rate.feeFor weight := by
  obtain ⟨floor, hfloor⟩ := hwhole
  have hunit : 0 < unitWeight := by decide
  unfold Short at h
  rw [hfloor, Nat.mul_comm, Nat.mul_lt_mul_left hunit] at h
  have hasked : (clampWord (rate.perUnit.toNat * weight.toNat / unitWeight)).toNat =
      min floor maxWord := by
    rw [clampWord_toNat, hfloor, Nat.mul_div_cancel_left _ hunit]
  have hpos : clampWord (rate.perUnit.toNat * weight.toNat / unitWeight) ≠ 0 := by
    intro hzero
    rw [hzero, UInt64.toNat_zero] at hasked
    omega
  rw [feeFor, if_neg fun hleast => hpos hleast.1, UInt64.lt_iff_toNat_lt, hasked]
  omega

end FeeRate

namespace Limits

variable {limits : Limits} {usage : Usage} {p : Package}

theorem short_of_check {required : UInt64} (h : limits.check usage p = .underpays required) :
    limits.minFeeRate.Short p.fee p.weight := by
  cases checks_of_check h with
  | underpays hshort =>
      rw [shortfall?, Option.ite_none_right_eq_some] at hshort
      exact FeeRate.short_of_lt_feeFor hshort.1

theorem check_of_lt_feeFor (h : p.fee < limits.minFeeRate.feeFor p.weight) :
    limits.check usage p = .underpays (limits.minFeeRate.feeFor p.weight) := by
  have hshort : limits.shortfall? p = some (limits.minFeeRate.feeFor p.weight) := if_pos h
  rw [check, hshort]

end Limits

namespace CandidateGraph

variable {g : CandidateGraph} {package : Fin g.size → Package} {a b : Fin g.size} {rate : FeeRate}

theorem short_iff {p : Package} (hweight : p.weight ≠ 0) :
    rate.Short p.fee p.weight ↔ exactRate p < rate.perUnit.toNat / FeeRate.unitWeight := by
  have hpos := RankKey.cast_pos hweight
  have hunit : (0 : ℚ) < FeeRate.unitWeight := by norm_num [FeeRate.unitWeight]
  rw [FeeRate.Short, exactRate, div_lt_div_iff₀ hpos hunit]
  norm_cast

/-- Nobody pays enough if the one who leads does not. -/
theorem short_of_leads (h : g.leads package a b = true) (ha : (package a).weight ≠ 0)
    (hb : (package b).weight ≠ 0) (hshort : rate.Short (package a).fee (package a).weight) :
    rate.Short (package b).fee (package b).weight := by
  have hle : exactRate (package b) ≤ exactRate (package a) := by
    simp only [leads, decide_eq_true_eq] at h
    rcases h with hless | ⟨hsame, -⟩
    · exact hless.le
    · exact hsame.ge
  rw [short_iff hb]
  exact lt_of_le_of_lt hle ((short_iff ha).mp hshort)

end CandidateGraph

namespace RoundSetting

variable {s : RoundSetting} {view : PoolView} {l l' : Ledger s.graph.size}
  {id head : Fin s.graph.size} {block : List (Fin s.graph.size)}

/-- What remains of a package pays less than the exact floor. -/
def Short (s : RoundSetting) (block : List (Fin s.graph.size)) (id : Fin s.graph.size) : Prop :=
  s.selector.limits.minFeeRate.Short (s.graph.reduced block id).fee (s.graph.reduced block id).weight

/-- The floor need not be rounded for any package, and the fees do not fill a word. -/
structure WholeFloor (s : RoundSetting) : Prop where
  fees : s.graph.total .fee s.graph.ids < maxWord
  weights : s.graph.total .weight s.graph.ids ≤ maxWord
  whole : ∀ id, FeeRate.unitWeight ∣
    s.selector.limits.minFeeRate.perUnit.toNat * (s.graph.tx id).weight.toNat

theorem WholeFloor.dvd_total (h : s.WholeFloor) (ids : List (Fin s.graph.size)) :
    FeeRate.unitWeight ∣
      s.selector.limits.minFeeRate.perUnit.toNat * s.graph.total .weight ids := by
  induction ids with
  | nil => exact Nat.dvd_zero _
  | cons id ids ih =>
      rw [CandidateGraph.total_cons, Nat.mul_add]
      exact Nat.dvd_add (h.whole id) ih

theorem WholeFloor.fee_recomputed (hg : s.graph.Consistent) (hfloor : s.WholeFloor)
    (hnodup : block.Nodup) (id : Fin s.graph.size) :
    (s.graph.recomputed block id).fee = (s.graph.reduced block id).fee :=
  CandidateGraph.ofPackage_recomputed hg hnodup (f := .fee) hfloor.fees.le id

theorem WholeFloor.weight_recomputed (hg : s.graph.Consistent) (hfloor : s.WholeFloor)
    (hnodup : block.Nodup) (id : Fin s.graph.size) :
    (s.graph.recomputed block id).weight = (s.graph.reduced block id).weight :=
  CandidateGraph.ofPackage_recomputed hg hnodup (f := .weight) hfloor.weights id

/-- What remains of a short package pays less than the floor asks. -/
theorem WholeFloor.lt_feeFor (hg : s.graph.Consistent) (hfloor : s.WholeFloor)
    (hnodup : block.Nodup) (h : s.Short block id) : (s.graph.reduced block id).fee <
      s.selector.limits.minFeeRate.feeFor (s.graph.reduced block id).weight := by
  have hremaining := CandidateGraph.total_le_ids (remaining_nodup hg block id)
  have hfee : (s.graph.recomputed block id).fee.toNat = _ :=
    CandidateGraph.toNat_recomputed .fee block id
  have hweight : (s.graph.recomputed block id).weight.toNat = _ :=
    CandidateGraph.toNat_recomputed .weight block id
  rw [hfloor.fee_recomputed hg hnodup] at hfee
  rw [hfloor.weight_recomputed hg hnodup,
    Nat.min_eq_left ((hremaining .weight).trans hfloor.weights)] at hweight
  apply FeeRate.Short.lt_feeFor h
  · have hless := Nat.lt_of_le_of_lt (hremaining .fee) hfloor.fees
    omega
  · rw [hweight]
    exact hfloor.dvd_total _

/-- Before the first rejection for the fee, and from then on, when whoever is skipped and whoever
is still open has a short package. -/
inductive Floored (s : RoundSetting) (l : Ledger s.graph.size) : Prop
  | above (h : ∀ entry ∈ l.skips, ¬entry.2.IsFloor)
  | below {before after : List (Fin s.graph.size × SkipReason)} (hskips : l.skips = before ++ after)
      (hbefore : ∀ entry ∈ before, ¬entry.2.IsFloor)
      (hafter : ∀ entry ∈ after, s.Short l.block entry.1)
      (hopen : ∀ id, l.isOpen id = true → s.Short l.block id)

/-- A decision leaves nobody open who was not. -/
theorem Decides.isOpen_of (hd : Decides s s.graph.reduced (l.consider head) head l')
    (hid : l'.isOpen id = true) : l.isOpen id = true := by
  rw [Ledger.isOpen_iff] at hid ⊢
  obtain ⟨hblock, hskipped, hconsidered⟩ := hid
  refine ⟨fun h => hblock (hd.mono.1 id h), fun h => hskipped (hd.mono.2 id h), fun h => ?_⟩
  rw [hd.considered_eq] at hconsidered
  exact hconsidered (List.mem_append_left _ h)

theorem isOpen_of_free (hl : Settled l) (hblock : id ∉ l.block) (hskipped : id ∉ l.skipped) :
    l.isOpen id = true := by
  rw [← Bool.not_eq_false, hl.isOpen_eq_false_iff, not_or]
  exact ⟨hblock, hskipped⟩

/-- A rejection adds entries of open candidates, for the fee only if that is its reason. -/
theorem exists_added_reject (hl : Settled l) (hblock : id ∉ l.block) (hskipped : id ∉ l.skipped)
    {reason : SkipReason} {P : Prop} (hreason : reason.IsFloor → P) :
    ∃ added, (s.graph.reject l id reason).skips = l.skips ++ added ∧
      ∀ entry ∈ added, l.isOpen entry.1 = true ∧ (entry.2.IsFloor → P) := by
  refine ⟨_, rfl, ?_⟩
  intro entry hentry
  rcases List.mem_cons.mp hentry with rfl | hbelow
  · exact ⟨isOpen_of_free hl hblock hskipped, hreason⟩
  · obtain ⟨d, hd, rfl⟩ := List.mem_map.mp hbelow
    have hfree := of_decide_eq_true (List.mem_filter.mp hd).2
    exact ⟨isOpen_of_free hl hfree.1 hfree.2, fun h => h.elim⟩

/-- A decision rejects open candidates, for the fee only if the package of the head is short, or
includes a package that pays what the floor asks. -/
theorem Decides.floor_cases (hg : s.graph.Consistent) (hl : Settled l) (hopen : l.isOpen head = true)
    (hd : Decides s s.graph.reduced (l.consider head) head l') :
    (l'.block = l.block ∧ ∃ added, l'.skips = l.skips ++ added ∧ ∀ entry ∈ added,
      l.isOpen entry.1 = true ∧ (entry.2.IsFloor → s.Short l.block head)) ∨
    (l'.skips = l.skips ∧ s.selector.limits.check (s.usageOf l.block)
      (s.graph.reduced l.block head) = .fits) := by
  obtain ⟨hblock, hskipped, -⟩ := Ledger.isOpen_iff.mp hopen
  cases hd with
  | underpaid hcheck =>
      exact .inl ⟨rfl, exists_added_reject hl hblock hskipped fun _ => Limits.short_of_check hcheck⟩
  | overflowing failures hcheck =>
      exact .inl ⟨rfl, exists_added_reject hl hblock hskipped fun h => h.elim⟩
  | refused failures hcheck hmember hgate =>
      have hout := not_mem_block_of_mem_remaining hblock hmember
      have hfree := hl.lawful.not_skipped_of_mem_remaining hg hskipped hmember
      exact .inl ⟨rfl, exists_added_reject hl hout hfree fun h =>
        absurd h (inadmissible_of_gate? hgate).not_isFloor⟩
  | included hcheck hgate => exact .inr ⟨rfl, hcheck⟩

theorem Floored.step (hg : s.graph.Consistent) (hfloor : s.WholeFloor) (hl : Settled l)
    (h : s.Floored l) (hbest : s.best? s.graph.reduced l = some head)
    (hd : Decides s s.graph.reduced (l.consider head) head l') : s.Floored l' := by
  have hopen := isOpen_of_best? hbest
  have hnodup := hl.lawful.block_nodup
  cases hd.floor_cases hg hl hopen with
  | inl hrejected =>
      obtain ⟨hblock, added, hskips, hadded⟩ := hrejected
      cases h with
      | above habove =>
          by_cases hfirst : ∃ entry ∈ added, entry.2.IsFloor
          · -- the head leads all others, so nobody open pays enough from now on
            obtain ⟨entry, hentry, hreason⟩ := hfirst
            have hshort := (hadded entry hentry).2 hreason
            have hweight := CandidateGraph.reduced_weight_ne_zero hg hnodup (.inr hfloor.weights)
            have hall : ∀ id, l.isOpen id = true → s.Short l'.block id := by
              intro id hid
              rw [hblock]
              exact CandidateGraph.short_of_leads (leads_of_best? hbest hid) (hweight head)
                (hweight id) hshort
            exact .below hskips habove (fun entry hentry => hall _ (hadded entry hentry).1)
              fun id hid => hall id (hd.isOpen_of hid)
          · apply Floored.above
            intro entry hentry hreason
            rw [hskips] at hentry
            rcases List.mem_append.mp hentry with hold | hnew
            · exact habove entry hold hreason
            · exact hfirst ⟨entry, hnew, hreason⟩
      | @below before after hsplit hbefore hafter hshort =>
          rw [hsplit, List.append_assoc] at hskips
          apply Floored.below hskips hbefore
          · intro entry hentry
            rw [hblock]
            rcases List.mem_append.mp hentry with hold | hnew
            · exact hafter entry hold
            · exact hshort _ (hadded entry hnew).1
          · intro id hid
            rw [hblock]
            exact hshort id (hd.isOpen_of hid)
  | inr hincluded =>
      obtain ⟨hskips, hfits⟩ := hincluded
      cases h with
      | above habove =>
          apply Floored.above
          rw [hskips]
          exact habove
      | below hsplit hbefore hafter hshort =>
          have hless := hfloor.lt_feeFor hg hnodup (hshort head hopen)
          rw [Limits.check_of_lt_feeFor hless] at hfits
          nomatch hfits

theorem floored_outcome (hg : s.graph.Consistent) (hfloor : s.WholeFloor) :
    s.Floored s.outcome.1 :=
  outcome_preserves hg (fun hl h hbest hd => h.step hg hfloor hl hbest hd)
    (.above fun entry hentry => absurd hentry (by simp [Ledger.empty]))

/-! ## What the report tells -/

theorem Floored.short_of_isFloor (h : s.Floored l) {i : Nat} {a : Fin s.graph.size}
    {floored : SkipReason} (hentry : l.skips[i]? = some (a, floored)) (hreason : floored.IsFloor) :
    ∃ first ≤ i, ∀ {j : Nat} {id reason}, first ≤ j → l.skips[j]? = some (id, reason) →
      s.Short l.block id := by
  cases h with
  | above habove => exact absurd hreason (habove _ (List.mem_of_getElem? hentry))
  | @below before after hskips hbefore hafter hopen =>
      rw [hskips] at hentry ⊢
      refine ⟨before.length, ?_, ?_⟩
      · by_contra hless
        rw [List.getElem?_append_left (by omega)] at hentry
        exact hbefore _ (List.mem_of_getElem? hentry) hreason
      · intro j id reason hj hlater
        rw [List.getElem?_append_right hj] at hlater
        exact hafter (id, reason) (List.mem_of_getElem? hlater)

/-- Whoever is skipped along with a candidate stands behind it. -/
theorem lt_of_ancestorSkipped (hg : s.graph.Consistent) (hl : l.Lawful) {i j : Nat}
    {a : Fin s.graph.size} {reason : SkipReason} (ha : l.skips[j]? = some (a, reason))
    (hid : l.skips[i]? = some (id, .ancestorSkipped (s.graph.hash a))) : j < i := by
  obtain ⟨k, hk, b, other, hb, -, -, hhash⟩ := hl.explained hid
  cases hg.hash_inj hhash
  have hsame : l.skipped[j]? = l.skipped[k]? := by
    rw [Ledger.skipped, List.getElem?_map, List.getElem?_map, ha, hb]
    rfl
  have hlength : j < l.skipped.length := by
    rw [Ledger.skipped, List.length_map]
    exact (List.getElem?_eq_some_iff.mp ha).1
  rwa [(List.getElem?_inj hlength hl.skipped_nodup).mp hsame]

theorem staysUnderpaid_reportOf (hg : s.graph.Consistent) (hshown : s.graph.Represents view)
    (hfloor : s.WholeFloor) (hl : Settled l) (h : s.Floored l) (stop : StopReason) :
    (s.reportOf l stop).StaysUnderpaid view s.selector.limits := by
  intro skip hskip hreason
  obtain ⟨i, hi⟩ := List.getElem?_of_mem hskip
  obtain ⟨id, hid, hhash⟩ := entry_of_skipped hi
  have hshort : s.Short l.block id := by
    cases hreason with
    | inl hown =>
        obtain ⟨first, hfirst, hafter⟩ := h.short_of_isFloor hid hown
        exact hafter hfirst hid
    | inr halong =>
        obtain ⟨other, hother, hfloored, hnamed⟩ := halong
        obtain ⟨j, hj⟩ := List.getElem?_of_mem hother
        obtain ⟨a, ha, hahash⟩ := entry_of_skipped hj
        rw [hnamed, ← hahash] at hid
        obtain ⟨first, hfirst, hafter⟩ := h.short_of_isFloor ha hfloored
        have hless := lt_of_ancestorSkipped hg hl.lawful ha hid
        exact hafter (by omega) hid
  have hnodup := hl.lawful.block_nodup
  have hless := hfloor.lt_feeFor hg hnodup hshort
  rw [← hfloor.fee_recomputed hg hnodup, ← hfloor.weight_recomputed hg hnodup] at hless
  rw [hashes_reportOf, ← hhash, hshown.ofTxs_remainder hg]
  exact ⟨_, Limits.check_of_lt_feeFor hless⟩

end RoundSetting

/-- Where the floor need not be rounded for the weight of any candidate, rejections for the fee
stand: what the block lacks of such a package in the end is still rejected for the fee. -/
theorem Selector.select_staysUnderpaid (selector : Selector) {view : PoolView}
    (hview : view.Accepted) (confirmations : Confirmations) (context : RoundContext)
    (hfees : (view.candidates.map fun tx => tx.fee.toNat).sum < maxWord)
    (hweights : (view.candidates.map fun tx => tx.weight.toNat).sum ≤ maxWord)
    (hwhole : ∀ tx ∈ view.candidates,
      FeeRate.unitWeight ∣ selector.limits.minFeeRate.perUnit.toNat * tx.weight.toNat) :
    ∃ report, selector.select view confirmations context = .ok report ∧
      report.StaysUnderpaid view selector.limits := by
  obtain ⟨graph, hgraph⟩ := hview
  let s : RoundSetting := { selector, graph, confirmations, context }
  have hg := CandidateGraph.consistent_of_ofView hgraph
  have hshown := CandidateGraph.represents_of_ofView hgraph
  have hfloor : s.WholeFloor := by
    refine ⟨?_, ?_, ?_⟩
    · rw [hshown.total_ids]
      exact hfees
    · rw [hshown.total_ids]
      exact hweights
    · intro id
      exact hwhole _ (hshown.mem_candidates_iff.mpr ⟨id, rfl⟩)
  exact ⟨_, s.select_eq_outcome hgraph (.inr hfloor.weights),
    s.staysUnderpaid_reportOf hg hshown hfloor (RoundSetting.settled_outcome hg)
      (RoundSetting.floored_outcome hg hfloor) _⟩

/-! ## A floor that is rounded -/

/-- A child and its parent, each with a fee of 1 for 1500 units of weight. -/
def lightPool : PoolView :=
  let child : Candidate := ⟨⟨1⟩, 2, 1, 1500, 4, [⟨⟨⟨2⟩, 0⟩, finalSequence⟩], 0, false⟩
  let parent : Candidate := ⟨⟨2⟩, 2, 1, 1500, 4, [⟨⟨⟨9⟩, 0⟩, finalSequence⟩], 0, false⟩
  .ofTables [child, parent] [(⟨1⟩, [⟨2⟩]), (⟨2⟩, [])] [(⟨1⟩, []), (⟨2⟩, [⟨1⟩])]

abbrev lightGraph : CandidateGraph :=
  { size := 2
    txs := ⟨#[⟨⟨1⟩, 2, 1, 1500, 4, [⟨⟨⟨2⟩, 0⟩, finalSequence⟩], 0, false⟩,
      ⟨⟨2⟩, 2, 1, 1500, 4, [⟨⟨⟨9⟩, 0⟩, finalSequence⟩], 0, false⟩], rfl⟩
    ancestors := ⟨#[[1], []], rfl⟩
    descendants := ⟨#[[], [0]], rfl⟩ }

theorem ofView_lightPool : CandidateGraph.ofView lightPool = .ok lightGraph := by
  cbv

/-- A round over the light pool at a floor of `rate` for 1000 units of weight. -/
abbrev lightRound (rate : UInt64) : RoundSetting :=
  { selector := ⟨⟨4000000, 80000, ⟨rate⟩⟩, default, 9, default⟩
    graph := lightGraph
    confirmations := familyFunds
    context := default }

theorem judge_light_child {rate required : UInt64}
    (hcheck : (lightRound rate).selector.limits.check ((lightRound rate).usageOf [])
      (lightGraph.reduced [] 0) = .underpays required) :
    (lightRound rate).judge lightGraph.reduced (Ledger.empty.consider 0) 0 =
      (⟨[], [(0, .feeRate 2 3000 required)], [0], 0⟩, none) := by
  have hfee : (lightGraph.reduced [] 0).fee = 2 := by decide +kernel
  have hweight : (lightGraph.reduced [] 0).weight = 3000 := by decide +kernel
  rw [RoundSetting.judge_of_underpays hcheck, Ledger.block_consider]
  show (lightGraph.reject _ 0 (.feeRate (lightGraph.reduced [] 0).fee
    (lightGraph.reduced [] 0).weight required), none) = _
  rw [hfee, hweight]
  rfl

theorem outcome_lightRound_one : (lightRound 1).outcome =
    (⟨[1], [(0, .feeRate 2 3000 3)], [0, 1], 0⟩, .poolExhausted) := by
  let s := lightRound 1
  have hparent : s.judge lightGraph.reduced
      (Ledger.consider ⟨[], [(0, .feeRate 2 3000 3)], [0], 0⟩ 1) 1 =
      (⟨[1], [(0, .feeRate 2 3000 3)], [0, 1], 0⟩, none) := by
    have hcheck : s.selector.limits.check (s.usageOf []) (lightGraph.reduced [] 1) = .fits := by
      decide +kernel
    have hmembers : lightGraph.remaining [] 1 = [1] :=
      List.mergeSort_of_pairwise (List.pairwise_singleton _ _)
    have hfound : (lightGraph.remaining [] 1).findSome? s.refusal? = none := by
      rw [hmembers]
      decide +kernel
    rw [RoundSetting.judge_of_admitted hcheck hfound, Ledger.block_consider, hmembers]
    decide +kernel
  calc s.greedy lightGraph.reduced 9 .empty
      = s.greedy lightGraph.reduced 8 ⟨[], [(0, .feeRate 2 3000 3)], [0], 0⟩ :=
        RoundSetting.greedy_next 8 (by decide +kernel) (judge_light_child (by decide +kernel))
    _ = s.greedy lightGraph.reduced 7 ⟨[1], [(0, .feeRate 2 3000 3)], [0, 1], 0⟩ :=
        RoundSetting.greedy_next 7 (by decide +kernel) hparent
    _ = _ := RoundSetting.greedy_of_none 7 (by decide +kernel)

theorem outcome_lightRound_thousand : (lightRound 1000).outcome =
    (⟨[], [(0, .feeRate 2 3000 3000), (1, .feeRate 1 1500 1500)], [0, 1], 0⟩, .poolExhausted) := by
  let s := lightRound 1000
  have hparent : s.judge lightGraph.reduced
      (Ledger.consider ⟨[], [(0, .feeRate 2 3000 3000)], [0], 0⟩ 1) 1 =
      (⟨[], [(0, .feeRate 2 3000 3000), (1, .feeRate 1 1500 1500)], [0, 1], 0⟩, none) := by
    have hcheck : s.selector.limits.check (s.usageOf []) (lightGraph.reduced [] 1) =
        .underpays 1500 := by
      decide +kernel
    rw [RoundSetting.judge_of_underpays hcheck]
    decide +kernel
  calc s.greedy lightGraph.reduced 9 .empty
      = s.greedy lightGraph.reduced 8 ⟨[], [(0, .feeRate 2 3000 3000)], [0], 0⟩ :=
        RoundSetting.greedy_next 8 (by decide +kernel) (judge_light_child (by decide +kernel))
    _ = s.greedy lightGraph.reduced 7
          ⟨[], [(0, .feeRate 2 3000 3000), (1, .feeRate 1 1500 1500)], [0, 1], 0⟩ :=
        RoundSetting.greedy_next 7 (by decide +kernel) hparent
    _ = _ := RoundSetting.greedy_of_none 7 (by decide +kernel)

/-- At a floor of 1 for 1000 units the parent passes, since its floor is rounded down, and so
would the child then, after both of them together were rejected. -/
theorem Selector.select_lightPool_recovers :
    CandidateGraph.ofView lightPool = .ok lightGraph ∧
    (lightPool.candidates.map fun tx => tx.fee.toNat).sum ≤ maxWord ∧
    (lightPool.candidates.map fun tx => tx.weight.toNat).sum ≤ maxWord ∧
    (lightPool.candidates.map fun tx => tx.sigopCost.toNat).sum ≤ maxWord ∧
    ∃ report, (lightRound 1).selector.select lightPool familyFunds default = .ok report ∧
      report.stop = .poolExhausted ∧ report.skipped = [⟨⟨1⟩, .feeRate 2 3000 3⟩] ∧
      (lightRound 1).selector.limits.check report.draft.usage
        (.ofTxs (lightPool.remainder report.draft.hashes ⟨1⟩)) = .fits ∧
      ∀ tx ∈ lightPool.remainder report.draft.hashes ⟨1⟩, (lightRound 1).gate? tx = none := by
  have hselect := (lightRound 1).select_eq_outcome ofView_lightPool (.inl (by decide))
  rw [outcome_lightRound_one] at hselect
  refine ⟨ofView_lightPool, by decide, by decide, by decide, _, hselect, rfl, rfl, ?_, ?_⟩
  · decide +kernel
  · decide +kernel

/-- At a floor of 1000 nothing is rounded, and both are rejected. -/
theorem Selector.select_staysUnderpaid_lightPool :
    lightPool.Accepted ∧
    (lightPool.candidates.map fun tx => tx.fee.toNat).sum < maxWord ∧
    (lightPool.candidates.map fun tx => tx.weight.toNat).sum ≤ maxWord ∧
    (∀ tx ∈ lightPool.candidates, FeeRate.unitWeight ∣ 1000 * tx.weight.toNat) ∧
    ∃ report, (lightRound 1000).selector.select lightPool familyFunds default = .ok report ∧
      report.skipped = [⟨⟨1⟩, .feeRate 2 3000 3000⟩, ⟨⟨2⟩, .feeRate 1 1500 1500⟩] ∧
      report.StaysUnderpaid lightPool (lightRound 1000).selector.limits := by
  have hselect := (lightRound 1000).select_eq_outcome ofView_lightPool (.inl (by decide))
  rw [outcome_lightRound_thousand] at hselect
  obtain ⟨report, hreport, hstays⟩ := Selector.select_staysUnderpaid (lightRound 1000).selector
    ⟨_, ofView_lightPool⟩ familyFunds default (by decide) (by decide) (by decide)
  obtain rfl := Except.ok.inj (hselect.symm.trans hreport)
  exact ⟨⟨_, ofView_lightPool⟩, by decide, by decide, by decide, _, hreport, rfl, hstays⟩

end BlockProduction

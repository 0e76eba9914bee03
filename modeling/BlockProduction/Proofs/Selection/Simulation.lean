import BlockProduction.Proofs.Selection.Queue
import BlockProduction.Proofs.Selection.Sums

/-!
# Rounds and their ledgers

A round with its queue, its flags, its kept sums and its known verdicts goes
through the same decisions as greedy selection over reduced packages.  The
invariant ties each of these to the ledger; every operation of the round is a
lemma about it, and a whole run follows by induction on the budget.
-/

namespace BlockProduction

namespace Ledger

variable {n : Nat}

/-- One candidate is skipped. -/
def skip (l : Ledger n) (id : Fin n) (reason : SkipReason) : Ledger n :=
  { l with skips := l.skips ++ [(id, reason)] }

theorem skipped_skip (l : Ledger n) (id : Fin n) (reason : SkipReason) :
    (l.skip id reason).skipped = l.skipped ++ [id] := by
  simp [skip, skipped]

/-- Skipping one candidate leaves the others as they are. -/
theorem filter_skip (l : Ledger n) {id : Fin n} {below : List (Fin n)} (hid : id ∉ below)
    (reason : SkipReason) :
    (below.filter fun d => d ∉ (l.skip id reason).block ∧ d ∉ (l.skip id reason).skipped) =
      below.filter fun d => d ∉ l.block ∧ d ∉ l.skipped := by
  refine List.filter_congr fun d hd => decide_eq_decide.mpr ?_
  have hne : d ≠ id := fun heq => hid (heq ▸ hd)
  rw [skipped_skip, List.mem_append, List.mem_singleton, or_iff_left hne]
  rfl

theorem isOpen_skip (l : Ledger n) (id j : Fin n) (reason : SkipReason) :
    (l.skip id reason).isOpen j = (l.isOpen j && decide (j ≠ id)) := by
  rw [Bool.eq_iff_iff, Bool.and_eq_true, decide_eq_true_eq, isOpen_iff, isOpen_iff, skipped_skip,
    List.mem_append, List.mem_singleton, not_or]
  simp only [skip]
  tauto

theorem isOpen_consider (l : Ledger n) (head id : Fin n) :
    (l.consider head).isOpen id = (l.isOpen id && decide (id ≠ head)) := by
  rw [Bool.eq_iff_iff, Bool.and_eq_true, decide_eq_true_eq, isOpen_iff, isOpen_iff]
  simp only [consider, skipped, List.mem_append, List.mem_singleton, not_or]
  tauto

theorem isOpen_extend (l : Ledger n) (members : List (Fin n)) (id : Fin n) :
    (l.extend members).isOpen id = (l.isOpen id && decide (id ∉ members)) := by
  rw [Bool.eq_iff_iff, Bool.and_eq_true, decide_eq_true_eq, isOpen_iff, isOpen_iff]
  simp only [extend, skipped, List.mem_append, not_or]
  tauto

end Ledger

/-! ## Several members at once -/

theorem get_foldl_put {n : Nat} (members : List (Fin n)) (flags : Vector Bool n)
    (id : Fin n) :
    (members.foldl (fun flags id => put flags id true) flags).get id =
      (flags.get id || decide (id ∈ members)) := by
  induction members generalizing flags with
  | nil => simp
  | cons m members ih =>
      rw [List.foldl_cons, ih, get_put]
      by_cases hid : id = m
      · simp [hid]
      · simp [hid]

theorem Draft.pushAll_of_nodup {txs : List Candidate} (draft : Draft)
    (h : ((draft.transactions ++ txs).map (·.hash)).Nodup) :
    draft.pushAll txs = .ok { draft with transactions := draft.transactions ++ txs } := by
  unfold Draft.pushAll
  induction txs generalizing draft with
  | nil => simp [pure, Except.pure]
  | cons tx txs ih =>
      have hfresh : draft.contains tx.hash = false := by
        rw [List.map_append, List.nodup_append] at h
        refine List.any_eq_false.mpr fun other hother => ?_
        have hne := h.2.2 _ (List.mem_map_of_mem hother) tx.hash (by simp)
        simpa using hne
      have hpush : draft.push tx = .ok { draft with transactions := draft.transactions ++ [tx] } := by
        simp [Draft.push, hfresh]
      rw [List.foldlM_cons, hpush]
      have hrest := ih { draft with transactions := draft.transactions ++ [tx] } (by simpa using h)
      simpa [bind, Except.bind] using hrest

namespace RankedQueue

variable {g : CandidateGraph} {q : RankedQueue g.size}

@[simp] theorem modified_foldl_remove (members : List (Fin g.size)) :
    (members.foldl RankedQueue.remove q).modified = q.modified := by
  induction members generalizing q with
  | nil => rfl
  | cons m members ih => rw [List.foldl_cons, ih, modified_remove]

theorem waiting_foldl_remove (members : List (Fin g.size)) (id : Fin g.size) :
    (members.foldl RankedQueue.remove q).waiting.get id =
      (q.waiting.get id && decide (id ∉ members)) := by
  induction members generalizing q with
  | nil => simp
  | cons m members ih =>
      rw [List.foldl_cons, ih, waiting_remove, Bool.and_assoc, ← Bool.decide_and]
      simp [not_or]

theorem Coherent.removeAll (hg : g.Consistent) (h : q.Coherent) (members : List (Fin g.size)) :
    (members.foldl RankedQueue.remove q).Coherent := by
  induction members generalizing q with
  | nil => exact h
  | cons m members ih => exact ih (h.remove hg m)

/-- Members that enter the block one after the other leave everybody outside reduced. -/
theorem Coherent.includeAll (hg : g.Consistent) (h : q.Coherent) {block members : List (Fin g.size)}
    {inBlock : Vector Bool g.size}
    (hmodified : ∀ id, inBlock.get id = false → q.modified.get id = g.reduced block id)
    (hnodup : (block ++ members).Nodup) (hmeasured : g.Measured (block ++ members)) :
    (members.foldl (fun q id => q.onIncluded id inBlock) q).Coherent ∧
    (members.foldl (fun q id => q.onIncluded id inBlock) q).waiting = q.waiting ∧
    ∀ id, inBlock.get id = false →
      (members.foldl (fun q id => q.onIncluded id inBlock) q).modified.get id =
        g.reduced (block ++ members) id := by
  induction members generalizing q block with
  | nil => exact ⟨h, rfl, by simpa using hmodified⟩
  | cons m members ih =>
      rw [List.append_cons] at hnodup hmeasured ⊢
      have hstep : ∀ id, inBlock.get id = false → m ∈ g.ancestorsOf id →
          (q.modified.get id).remove (g.tx m) = g.reduced (block ++ [m]) id := by
        intro id hout hm
        rw [hmodified id hout, CandidateGraph.reduced_append_singleton, if_pos hm]
      have hweight : ∀ id ∈ g.descendantsOf m, inBlock.get id = false → q.waiting.get id = true →
          ((q.modified.get id).remove (g.tx m)).weight ≠ 0 := by
        intro id hid hout _
        rw [hstep id hout (hg.mem_descendants_iff.mp hid)]
        exact CandidateGraph.reduced_weight_ne_zero hg (List.nodup_append.mp hnodup).1
          hmeasured.append_left id
      obtain ⟨hcoherent, hwaiting, hnext⟩ := h.onIncluded hg hweight
      have hreduced : ∀ id, inBlock.get id = false →
          (q.onIncluded m inBlock).modified.get id = g.reduced (block ++ [m]) id := by
        intro id hout
        rw [hnext id]
        by_cases hm : m ∈ g.ancestorsOf id
        · rw [if_pos ⟨hg.mem_descendants_iff.mpr hm, hout⟩, hstep id hout hm]
        · rw [if_neg fun hd => hm (hg.mem_descendants_iff.mp hd.1), hmodified id hout,
            CandidateGraph.reduced_append_singleton, if_neg hm]
      obtain ⟨hall, hflags, hmodified⟩ := ih hcoherent hreduced hnodup hmeasured
      exact ⟨hall, hflags.trans hwaiting, hmodified⟩

end RankedQueue

namespace RoundSetting

variable {s : RoundSetting} {r : Round s.graph.size} {l : Ledger s.graph.size}
  {id head : Fin s.graph.size}

/-- The state of a round that has decided what a ledger says. -/
structure Matches (s : RoundSetting) (r : Round s.graph.size) (l : Ledger s.graph.size) :
    Prop where
  coherent : r.queue.Coherent
  modified : ∀ id, id ∉ l.block → r.queue.modified.get id = s.graph.reduced l.block id
  waiting : ∀ id, r.queue.waiting.get id = l.isOpen id
  inBlock : ∀ id, r.inBlock.get id = decide (id ∈ l.block)
  skipped : ∀ id, r.skipped.get id = decide (id ∈ l.skipped)
  skips : r.skips.reverse = l.skips.map fun entry => ⟨s.graph.hash entry.1, entry.2⟩
  draft : r.draft = s.draftOf l.block
  considered : r.considered = l.considered.length
  failures : r.failures = l.failures
  verdicts : ∀ {id verdict}, r.verdicts.get id = some verdict → verdict = s.gate? (s.graph.tx id)

/-- Weights stay below the largest word, in the block or in the whole pool. -/
def WeightsFit (s : RoundSetting) : Prop :=
  s.selector.limits.maxWeight.toNat < maxWord ∨ s.graph.total .weight s.graph.ids ≤ maxWord

theorem Matches.report_eq (h : Matches s r l) (stop : StopReason) :
    s.report r stop = s.reportOf l stop := by
  rw [report, reportOf, h.draft, h.skips, h.considered]

theorem Matches.usage_eq (h : Matches s r l) : r.draft.usage = s.usageOf l.block := by
  rw [h.draft]
  rfl

/-! ## The start -/

theorem usageOf_nil (s : RoundSetting) :
    s.usageOf [] = ⟨s.selector.reservation.weight, s.selector.reservation.sigopCost, 0⟩ := by
  refine Figure.usage_ext fun f => ?_
  rw [← UInt64.toNat_inj, toNat_usageOf, CandidateGraph.total_nil, Nat.add_zero,
    Nat.min_eq_left (toNat_le_maxWord _)]
  cases f <;> rfl

theorem matches_start (hg : s.graph.Consistent) : Matches s s.start .empty where
  coherent := .start hg
  modified := fun id _ => by simp [start, RankedQueue.start, Ledger.empty, CandidateGraph.reduced]
  waiting := fun id => by
    simp [start, RankedQueue.start, Ledger.isOpen, Ledger.empty, Ledger.skipped]
  inBlock := fun id => by simp [start, Ledger.empty]
  skipped := fun id => by simp [start, Ledger.empty, Ledger.skipped]
  skips := rfl
  draft := by
    rw [start, Draft.start, draftOf, Ledger.empty, usageOf_nil]
    rfl
  considered := rfl
  failures := rfl
  verdicts := fun h => by simp [start] at h

/-! ## Taking the best candidate -/

theorem best?_eq_none {package : List (Fin s.graph.size) → Fin s.graph.size → Package}
    (h : ∀ id, l.isOpen id = false) : s.best? package l = none := by
  have hnil : s.graph.ids.filter l.isOpen = [] :=
    List.filter_eq_nil_iff.mpr fun id _ => by simp [h id]
  rw [best?, hnil]
  rfl

theorem leads_of_best? {package : List (Fin s.graph.size) → Fin s.graph.size → Package}
    (h : s.best? package l = some head) (hid : l.isOpen id = true) :
    s.graph.leads (package l.block) head id = true := by
  simp only [best?] at h
  have hall := List.find?_some h
  exact List.all_eq_true.mp hall id (List.mem_filter.mpr ⟨CandidateGraph.mem_ids id, hid⟩)

/-- A candidate that stands before all others is the one that is found. -/
theorem best?_eq_some (hg : s.graph.Consistent)
    {package : List (Fin s.graph.size) → Fin s.graph.size → Package}
    (hopen : l.isOpen head = true)
    (hlead : ∀ id, l.isOpen id = true → s.graph.leads (package l.block) head id = true) :
    s.best? package l = some head := by
  cases hbest : s.best? package l with
  | none =>
      have hnone := List.find?_eq_none.mp hbest head
        (List.mem_filter.mpr ⟨CandidateGraph.mem_ids head, hopen⟩)
      refine absurd (List.all_eq_true.mpr fun id hid => ?_) hnone
      exact hlead id (List.mem_filter.mp hid).2
  | some found =>
      have hfound := leads_of_best? hbest hopen
      have hback := hlead found (isOpen_of_best? hbest)
      rw [RankedQueue.leads_iff_standing] at hfound hback
      rw [RankedQueue.id_eq_of_standing hg (le_antisymm hfound hback)]

theorem Matches.best?_of_pop?_none (h : Matches s r l) (hpop : r.queue.pop? = none) :
    s.best? s.graph.reduced l = none := by
  refine best?_eq_none fun id => ?_
  rw [← h.waiting]
  exact h.coherent.pop?_eq_none_iff.mp hpop id

/-- The queue gives the open candidate that leads all others. -/
theorem Matches.pop (hg : s.graph.Consistent) (h : Matches s r l)
    {queue : RankedQueue s.graph.size} (hpop : r.queue.pop? = some (head, queue)) :
    s.best? s.graph.reduced l = some head ∧
      Matches s { r with queue, considered := r.considered + 1 } (l.consider head) := by
  obtain ⟨hcoherent, hmodified, hwaiting, hflags, hlead⟩ := h.coherent.pop? hpop
  have hout : ∀ {id}, r.queue.waiting.get id = true → id ∉ l.block := by
    intro id hid
    rw [h.waiting] at hid
    exact (Ledger.isOpen_iff.mp hid).1
  refine ⟨best?_eq_some hg (h.waiting head ▸ hwaiting) ?_, ⟨hcoherent, ?_, ?_, h.inBlock, h.skipped,
    h.skips, h.draft, ?_, h.failures, h.verdicts⟩⟩
  · intro id hid
    rw [← h.waiting] at hid
    rw [RankedQueue.leads_iff_standing]
    by_cases heq : id = head
    · rw [heq]
    · have hless := hlead id hid heq
      rw [RankedQueue.key, RankedQueue.key, h.modified id (hout hid),
        h.modified head (hout hwaiting)] at hless
      exact hless.le
  · intro id hid
    simp only [hmodified]
    exact h.modified id hid
  · intro id
    rw [Ledger.isOpen_consider, ← h.waiting]
    exact hflags id
  · simp [Ledger.consider, h.considered]

/-! ## Rejecting -/

theorem Matches.skip (hg : s.graph.Consistent) (h : Matches s r l) (id : Fin s.graph.size)
    (reason : SkipReason) : Matches s (s.skip r id reason) (l.skip id reason) := by
  refine ⟨h.coherent.remove hg id, ?_, ?_, h.inBlock, ?_, ?_, h.draft, h.considered, h.failures,
    h.verdicts⟩
  · intro j hj
    simp only [RoundSetting.skip, RankedQueue.modified_remove]
    exact h.modified j hj
  · intro j
    simp only [RoundSetting.skip, RankedQueue.waiting_remove]
    rw [h.waiting, Ledger.isOpen_skip]
  · intro j
    simp only [RoundSetting.skip, get_put, h.skipped, Ledger.skipped_skip]
    by_cases hj : j = id
    · simp [hj]
    · simp [hj]
  · simp [RoundSetting.skip, Ledger.skip, h.skips]

/-- Skipping all of a list but those that are decided, one after the other. -/
theorem Matches.skipAll (hg : s.graph.Consistent) {below : List (Fin s.graph.size)}
    (hnodup : below.Nodup) (h : Matches s r l) (reason : SkipReason) :
    Matches s
      (below.foldl (fun r d => if r.inBlock.get d || r.skipped.get d then r else s.skip r d reason) r)
      { l with
        skips := l.skips ++
          (below.filter fun d => d ∉ l.block ∧ d ∉ l.skipped).map fun d => (d, reason) } := by
  induction below generalizing r l with
  | nil => simpa using h
  | cons d below ih =>
      obtain ⟨hd, hnodup⟩ := List.nodup_cons.mp hnodup
      rw [List.foldl_cons]
      by_cases hdecided : d ∈ l.block ∨ d ∈ l.skipped
      · have hflag : (r.inBlock.get d || r.skipped.get d) = true := by
          rw [h.inBlock, h.skipped]
          simpa using hdecided
        have hdrop : ¬(d ∉ l.block ∧ d ∉ l.skipped) := by tauto
        rw [if_pos hflag, List.filter_cons_of_neg (by simpa using hdrop)]
        exact ih hnodup h
      · have hflag : ¬(r.inBlock.get d || r.skipped.get d) = true := by
          rw [h.inBlock, h.skipped]
          simpa using hdecided
        have hkeep : d ∉ l.block ∧ d ∉ l.skipped := by tauto
        rw [if_neg hflag, List.filter_cons_of_pos (by simpa using hkeep)]
        have hnext := ih hnodup (h.skip hg d reason)
        rw [Ledger.filter_skip _ hd] at hnext
        simpa [Ledger.skip] using hnext

theorem Matches.reject (hg : s.graph.Consistent) (h : Matches s r l) (hid : id ∉ l.skipped)
    (reason : SkipReason) :
    Matches s (s.reject r id reason) (s.graph.reject l id reason) := by
  have hflag : ¬r.skipped.get id = true := by simpa [h.skipped] using hid
  have hnext := (h.skip hg id reason).skipAll hg (hg.descendants_nodup id)
    (.ancestorSkipped (s.graph.hash id))
  rw [Ledger.filter_skip _ (hg.not_mem_descendants_self id)] at hnext
  simpa [RoundSetting.reject, CandidateGraph.reject, Ledger.skip, hflag] using hnext

/-! ## Asking the gate -/

theorem Matches.ask (h : Matches s r l) (id : Fin s.graph.size) :
    ∃ r', s.ask r id = (s.gate? (s.graph.tx id), r') ∧ Matches s r' l := by
  unfold RoundSetting.ask
  cases hknown : r.verdicts.get id with
  | some verdict => exact ⟨r, by rw [h.verdicts hknown], h⟩
  | none =>
      refine ⟨_, rfl, h.coherent, h.modified, h.waiting, h.inBlock, h.skipped, h.skips, h.draft,
        h.considered, h.failures, ?_⟩
      intro j verdict hj
      simp only [get_put] at hj
      by_cases heq : j = id
      · rw [if_pos heq] at hj
        rw [heq]
        exact (Option.some.inj hj).symm
      · rw [if_neg heq] at hj
        exact h.verdicts hj

/-- Known verdicts do not change who is refused first. -/
theorem Matches.firstRefused (h : Matches s r l) (members : List (Fin s.graph.size)) :
    ∃ r', s.firstRefused r members = (members.findSome? s.refusal?, r') ∧ Matches s r' l := by
  induction members generalizing r with
  | nil => exact ⟨r, rfl, h⟩
  | cons m members ih =>
      obtain ⟨r', hask, hmatches⟩ := h.ask m
      rw [RoundSetting.firstRefused, hask, List.findSome?_cons, refusal?]
      cases s.gate? (s.graph.tx m) with
      | some reason => exact ⟨r', rfl, hmatches⟩
      | none => exact ih hmatches

/-! ## Including a package -/

theorem Matches.members_eq (h : Matches s r l) (head : Fin s.graph.size) :
    s.members r head = s.graph.remaining l.block head := by
  have hsame : (s.graph.ancestorsOf head).filter (fun a => !r.inBlock.get a) =
      (s.graph.ancestorsOf head).filter fun a => a ∉ l.block := by
    refine List.filter_congr fun a _ => ?_
    rw [h.inBlock, ← decide_not]
  rw [members, CandidateGraph.remaining, hsame]

/-- A package that fits leaves all packages their weight. -/
theorem measured_extend (hg : s.graph.Consistent) (hweights : s.WeightsFit)
    (hnodup : l.block.Nodup)
    (hcheck : s.selector.limits.check (s.usageOf l.block) (s.graph.reduced l.block head) = .fits) :
    s.graph.Measured (l.block ++ s.graph.remaining l.block head) := by
  refine hweights.imp_left fun hlimit => ?_
  have hweight := (Limits.commit_le_of_check hcheck).1
  have htotal := toNat_usageOf (s := s) .weight (l.block ++ s.graph.remaining l.block head)
  rw [usageOf_extend hg hnodup] at htotal
  rw [UInt64.le_iff_toNat_le] at hweight
  simp only [Figure.ofUsage] at htotal
  omega

theorem Matches.accept (hg : s.graph.Consistent) (h : Matches s r l)
    {members : List (Fin s.graph.size)} {p : Package} (hnodup : (l.block ++ members).Nodup)
    (hmeasured : s.graph.Measured (l.block ++ members))
    (husage : s.usageOf (l.block ++ members) = (s.usageOf l.block).commit p) :
    ∃ r', s.accept r members p = .ok r' ∧ Matches s r' (l.extend members) := by
  have hpush : r.draft.pushAll (members.map s.graph.tx) =
      .ok { r.draft with transactions := r.draft.transactions ++ members.map s.graph.tx } := by
    refine Draft.pushAll_of_nodup _ ?_
    rw [h.draft, draftOf, ← List.map_append, List.map_map]
    exact hg.nodup_map_hash hnodup
  have hflags : ∀ id, (members.foldl (fun flags id => put flags id true) r.inBlock).get id =
      decide (id ∈ l.block ++ members) := by
    intro id
    rw [get_foldl_put, h.inBlock, ← Bool.decide_or]
    exact decide_eq_decide.mpr List.mem_append.symm
  rw [RoundSetting.accept, hpush]
  generalize members.foldl (fun flags id => put flags id true) r.inBlock = flags at hflags ⊢
  have hout : ∀ id, flags.get id = false ↔ id ∉ l.block ++ members := by
    intro id
    rw [hflags, decide_eq_false_iff_not]
  have hremoved : ∀ id, flags.get id = false →
      (members.foldl RankedQueue.remove r.queue).modified.get id = s.graph.reduced l.block id := by
    intro id hid
    rw [RankedQueue.modified_foldl_remove]
    exact h.modified id fun hin => (hout id).mp hid (List.mem_append_left _ hin)
  obtain ⟨hcoherent, hwaiting, hmodified⟩ :=
    (h.coherent.removeAll hg members).includeAll hg hremoved hnodup hmeasured
  refine ⟨_, rfl, hcoherent, ?_, ?_, hflags, h.skipped, h.skips, ?_, h.considered, rfl, h.verdicts⟩
  · exact fun id hid => hmodified id ((hout id).mpr hid)
  · intro id
    rw [Ledger.isOpen_extend, ← h.waiting, ← RankedQueue.waiting_foldl_remove]
    exact congrArg (fun flags : Vector Bool s.graph.size => flags.get id) hwaiting
  · simp only [h.draft, draftOf, Draft.commit, Ledger.extend, husage, List.map_append]

/-! ## One decision -/

/-- The outcome of a decision in a round and in the ledger. -/
inductive Agrees (s : RoundSetting) :
    Considered s.graph.size → Ledger s.graph.size × Option StopReason → Prop
  | next {r : Round s.graph.size} {l : Ledger s.graph.size} (h : Matches s r l) :
      Agrees s (.next r) (l, none)
  | full {r : Round s.graph.size} {l : Ledger s.graph.size} (h : Matches s r l) :
      Agrees s (.full r) (l, some .blockFull)

theorem Matches.fail (h : Matches s r l) : Agrees s (s.fail r) (s.failed l) := by
  have hnext : Matches s { r with failures := r.failures + 1 }
      { l with failures := l.failures + 1 } := by
    refine ⟨h.coherent, h.modified, h.waiting, h.inBlock, h.skipped, h.skips, h.draft,
      h.considered, ?_, h.verdicts⟩
    rw [h.failures]
  simp only [RoundSetting.fail, failed, h.failures, h.usage_eq]
  rw [h.failures] at hnext
  split
  · exact .full hnext
  · exact .next hnext

theorem Matches.consider (hg : s.graph.Consistent) (hweights : s.WeightsFit)
    (h : Matches s r l) (hl : l.Lawful) (hblock : head ∉ l.block) (hskipped : head ∉ l.skipped) :
    ∃ outcome, s.consider r head = .ok outcome ∧
      Agrees s outcome (s.judge s.graph.reduced l head) := by
  simp only [RoundSetting.consider, h.modified head hblock, h.usage_eq, h.members_eq]
  cases hcheck : s.selector.limits.check (s.usageOf l.block) (s.graph.reduced l.block head) with
  | underpays required =>
      simp only [judge, hcheck]
      exact ⟨_, rfl, .next (h.reject hg hskipped _)⟩
  | overflows weight sigopCost =>
      simp only [judge, hcheck]
      exact ⟨_, rfl, (h.reject hg hskipped _).fail⟩
  | fits =>
      obtain ⟨r', hasked, hmatches⟩ := h.firstRefused (s.graph.remaining l.block head)
      simp only [judge, hcheck, hasked]
      cases hfound : (s.graph.remaining l.block head).findSome? s.refusal? with
      | some refusal =>
          obtain ⟨m, hm, hrefusal⟩ := List.exists_of_findSome?_eq_some hfound
          obtain ⟨rfl, -⟩ := gate?_of_refusal? hrefusal
          exact ⟨_, rfl,
            (hmatches.reject hg (hl.not_skipped_of_mem_remaining hg hskipped hm) _).fail⟩
      | none =>
          obtain ⟨r'', haccept, hnext⟩ := hmatches.accept hg
            (hl.extend hg hblock hskipped).block_nodup
            (measured_extend hg hweights hl.block_nodup hcheck)
            (usageOf_extend hg hl.block_nodup head)
          refine ⟨.next r'', ?_, .next hnext⟩
          show (s.accept r' _ _).map Considered.next = _
          rw [haccept]
          rfl

/-! ## Whole rounds -/

/-- One turn of the loop decides what the ledger decides. -/
theorem Matches.run_step (hg : s.graph.Consistent) (hweights : s.WeightsFit) (h : Matches s r l)
    (hl : Settled l) (hbest : s.best? s.graph.reduced l = some head) {budget : Nat} :
    ∃ outcome, s.run (budget + 1) r = (match outcome with
        | .full r => .ok (s.report r .blockFull)
        | .next r => s.run budget r) ∧
      Agrees s outcome (s.judge s.graph.reduced (l.consider head) head) := by
  rw [run]
  cases hpop : r.queue.pop? with
  | none =>
      rw [h.best?_of_pop?_none hpop] at hbest
      contradiction
  | some popped =>
      obtain ⟨found, queue⟩ := popped
      obtain ⟨hfound, hpopped⟩ := h.pop hg hpop
      have hhead : found = head := Option.some.inj (hfound.symm.trans hbest)
      subst hhead
      obtain ⟨hblock, hskipped, -⟩ := Ledger.isOpen_iff.mp (isOpen_of_best? hbest)
      obtain ⟨outcome, hconsider, hagrees⟩ := hpopped.consider hg hweights
        (hl.lawful.congr rfl rfl) hblock hskipped
      refine ⟨outcome, ?_, hagrees⟩
      simp only [hconsider]
      cases outcome <;> rfl

/-- A round ends with the report of greedy selection over reduced packages. -/
theorem run_eq_greedy (hg : s.graph.Consistent) (hweights : s.WeightsFit) (budget : Nat)
    (h : Matches s r l) (hl : Settled l) :
    s.run budget r = .ok (s.reportOf (s.greedy s.graph.reduced budget l).1
      (s.greedy s.graph.reduced budget l).2) := by
  fun_induction s.greedy s.graph.reduced budget l generalizing r with
  | case1 budget l hbest =>
      rw [run]
      cases hpop : r.queue.pop? with
      | none => simp only [h.report_eq]
      | some popped =>
          rw [(h.pop hg hpop).1] at hbest
          contradiction
  | case2 l head hbest =>
      rw [run]
      cases hpop : r.queue.pop? with
      | none =>
          rw [h.best?_of_pop?_none hpop] at hbest
          contradiction
      | some popped => simp only [h.report_eq]
  | case3 l head hbest budget next stop hjudge =>
      obtain ⟨r', hconsider, hagrees⟩ := h.run_step hg hweights hl hbest
      rw [hjudge] at hagrees
      cases hagrees with
      | full hfull =>
          rw [hconsider]
          exact congrArg Except.ok (hfull.report_eq .blockFull)
  | case4 l head hbest budget next hjudge ih =>
      obtain ⟨r', hconsider, hagrees⟩ := h.run_step hg hweights hl hbest
      rw [hjudge] at hagrees
      cases hagrees with
      | next hnext =>
          rw [hconsider]
          exact ih hnext (hl.step hg (isOpen_of_best? hbest) (decides_of_judge hjudge))

end RoundSetting

end BlockProduction

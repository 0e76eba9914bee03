import BlockProduction.Proofs.Selection.Greedy

/-!
# Laws of the ledger

Whatever packages are worth, a round keeps its decisions apart: nobody is both in
the block and skipped, the block holds the ancestors of its members before them,
the skipped candidates hold their descendants, and who is skipped because of an
ancestor stands behind that ancestor, which has a reason of its own.
-/

namespace BlockProduction

/-- A reason that lies in the candidate itself. -/
def SkipReason.Direct (reason : SkipReason) : Prop :=
  ∀ ancestor, reason ≠ .ancestorSkipped ancestor

section Ledger

variable {g : CandidateGraph} {l : Ledger g.size} {id head : Fin g.size}

namespace Ledger

theorem isOpen_iff {n : Nat} {l : Ledger n} {id : Fin n} :
    l.isOpen id = true ↔ id ∉ l.block ∧ id ∉ l.skipped ∧ id ∉ l.considered := by
  simp [isOpen]

@[simp] theorem block_consider {n : Nat} (l : Ledger n) (head : Fin n) :
    (l.consider head).block = l.block := rfl

/-- What one ledger says, another says first. -/
structure Begins {n : Nat} (l l' : Ledger n) : Prop where
  block : l.block <+: l'.block
  skips : l.skips <+: l'.skips
  considered : l.considered <+: l'.considered

theorem Begins.refl {n : Nat} (l : Ledger n) : l.Begins l :=
  ⟨List.prefix_refl _, List.prefix_refl _, List.prefix_refl _⟩

theorem Begins.trans {n : Nat} {l l' l'' : Ledger n} (h : l.Begins l') (h' : l'.Begins l'') :
    l.Begins l'' :=
  ⟨h.block.trans h'.block, h.skips.trans h'.skips, h.considered.trans h'.considered⟩

theorem begins_consider {n : Nat} (l : Ledger n) (head : Fin n) : l.Begins (l.consider head) :=
  ⟨List.prefix_refl _, List.prefix_refl _, List.prefix_append _ _⟩

/-- What holds of the decisions of every round. -/
structure Lawful (l : Ledger g.size) : Prop where
  block_nodup : l.block.Nodup
  block_closed : ∀ {id a}, id ∈ l.block → a ∈ g.ancestorsOf id → a ∈ l.block
  block_ordered : l.block.Pairwise fun a b => b ∉ g.ancestorsOf a
  skipped_nodup : l.skipped.Nodup
  not_skipped : ∀ {id}, id ∈ l.block → id ∉ l.skipped
  skipped_closed : ∀ {id d}, id ∈ l.skipped → d ∈ g.descendantsOf id → d ∈ l.skipped
  explained : ∀ {i : Nat} {id h}, l.skips[i]? = some (id, SkipReason.ancestorSkipped h) →
    ∃ j < i, ∃ a, ∃ reason : SkipReason, l.skips[j]? = some (a, reason) ∧ reason.Direct ∧
      a ∈ g.ancestorsOf id ∧ g.hash a = h

theorem Lawful.congr {l' : Ledger g.size} (h : l.Lawful) (hblock : l'.block = l.block)
    (hskips : l'.skips = l.skips) : l'.Lawful := by
  obtain ⟨block, skips, considered, failures⟩ := l
  obtain ⟨block', skips', considered', failures'⟩ := l'
  cases hblock
  cases hskips
  exact ⟨h.1, h.2, h.3, h.4, h.5, h.6, h.7⟩

theorem Lawful.empty : (Ledger.empty : Ledger g.size).Lawful where
  block_nodup := .nil
  block_closed := fun h => absurd h (by simp [Ledger.empty])
  block_ordered := .nil
  skipped_nodup := .nil
  not_skipped := fun h => absurd h (by simp [Ledger.empty])
  skipped_closed := fun h => absurd h (by simp [Ledger.empty, skipped])
  explained := fun h => absurd h (by simp [Ledger.empty])

end Ledger

open Ledger

/-! ## Rejecting -/

theorem skipped_reject (l : Ledger g.size) (id : Fin g.size) (reason : SkipReason) :
    (g.reject l id reason).skipped = l.skipped ++ id ::
      (g.descendantsOf id).filter fun d => d ∉ l.block ∧ d ∉ l.skipped := by
  simp [CandidateGraph.reject, skipped, Function.comp_def]

theorem mem_skipped_reject {reason : SkipReason} {x : Fin g.size} :
    x ∈ (g.reject l id reason).skipped ↔ x ∈ l.skipped ∨ x = id ∨
      x ∈ g.descendantsOf id ∧ x ∉ l.block ∧ x ∉ l.skipped := by
  simp only [skipped_reject, List.mem_append, List.mem_cons, List.mem_filter, decide_eq_true_eq]

/-- The candidates that a rejection skips stand at the end, the rejected one first. -/
theorem getElem?_skips_reject {reason : SkipReason} {i : Nat} {x : Fin g.size} {r : SkipReason}
    (h : (g.reject l id reason).skips[i]? = some (x, r)) :
    l.skips[i]? = some (x, r) ∨ (i = l.skips.length ∧ x = id ∧ r = reason) ∨
      (l.skips.length < i ∧ x ∈ g.descendantsOf id ∧ r = .ancestorSkipped (g.hash id)) := by
  simp only [CandidateGraph.reject] at h
  rcases Nat.lt_trichotomy i l.skips.length with hlt | heq | hgt
  · rw [List.getElem?_append_left hlt] at h
    exact .inl h
  · subst heq
    simp only [Std.le_refl, List.getElem?_append_right, Nat.sub_self, List.getElem?_cons_zero,
      Option.some.injEq, Prod.mk.injEq] at h
    exact .inr (.inl ⟨rfl, h.1.symm, h.2.symm⟩)
  · obtain ⟨k, rfl⟩ : ∃ k, i = l.skips.length + (k + 1) := ⟨i - l.skips.length - 1, by omega⟩
    rw [List.getElem?_append_right (by omega), Nat.add_sub_cancel_left,
      List.getElem?_cons_succ, List.getElem?_map] at h
    obtain ⟨d, hd, heq⟩ := Option.map_eq_some_iff.mp h
    obtain ⟨rfl, rfl⟩ := Prod.mk.inj heq
    exact .inr (.inr ⟨by omega, (List.mem_filter.mp (List.mem_of_getElem? hd)).1, rfl⟩)

/-- A descendant of a candidate outside a closed block is outside, too. -/
theorem Ledger.Lawful.not_mem_block_of_descendant (hg : g.Consistent) (h : l.Lawful)
    (hid : id ∉ l.block) {d : Fin g.size} (hd : d ∈ g.descendantsOf id) : d ∉ l.block :=
  fun hin => hid (h.block_closed hin (hg.mem_descendants_iff.mp hd))

theorem Ledger.Lawful.nodup_skipped_reject (hg : g.Consistent) (h : l.Lawful)
    (hskipped : id ∉ l.skipped) (reason : SkipReason) : (g.reject l id reason).skipped.Nodup := by
  have hself := hg.not_mem_descendants_self id
  have hbelow := (hg.descendants_nodup id).filter fun d => d ∉ l.block ∧ d ∉ l.skipped
  rw [skipped_reject]
  refine List.nodup_append.mpr ⟨h.skipped_nodup, List.nodup_cons.mpr ⟨?_, hbelow⟩, ?_⟩
  · exact fun hin => hself (List.mem_filter.mp hin).1
  · intro a ha b hb heq
    subst heq
    rcases List.mem_cons.mp hb with rfl | hb
    · exact hskipped ha
    · have hout := (List.mem_filter.mp hb).2
      simp only [Bool.decide_and, Bool.and_eq_true, decide_eq_true_eq] at hout
      exact hout.2 ha

theorem Ledger.Lawful.descendant_skipped_reject (hg : g.Consistent) (h : l.Lawful)
    (hblock : id ∉ l.block) (reason : SkipReason) {d : Fin g.size} (hd : d ∈ g.descendantsOf id) :
    d ∈ (g.reject l id reason).skipped := by
  rw [mem_skipped_reject]
  by_cases hold : d ∈ l.skipped
  · exact .inl hold
  · exact .inr (.inr ⟨hd, h.not_mem_block_of_descendant hg hblock hd, hold⟩)

theorem Ledger.Lawful.reject (hg : g.Consistent) (h : l.Lawful) (hblock : id ∉ l.block)
    (hskipped : id ∉ l.skipped) {reason : SkipReason} (hdirect : reason.Direct) :
    (g.reject l id reason).Lawful where
  block_nodup := h.block_nodup
  block_closed := h.block_closed
  block_ordered := h.block_ordered
  skipped_nodup := h.nodup_skipped_reject hg hskipped reason
  not_skipped := by
    intro x hx hin
    rcases mem_skipped_reject.mp hin with hold | rfl | ⟨-, hout, -⟩
    · exact h.not_skipped hx hold
    · exact hblock hx
    · exact hout hx
  skipped_closed := by
    intro x d hx hd
    rcases mem_skipped_reject.mp hx with hold | rfl | ⟨hx, -, -⟩
    · exact mem_skipped_reject.mpr (.inl (h.skipped_closed hold hd))
    · exact h.descendant_skipped_reject hg hblock reason hd
    · exact h.descendant_skipped_reject hg hblock reason (hg.descendants_trans hx hd)
  explained := by
    intro i x ancestor hi
    rcases getElem?_skips_reject hi with hold | ⟨-, -, heq⟩ | ⟨hlt, hx, heq⟩
    · obtain ⟨j, hj, a, r, hentry, hr⟩ := h.explained hold
      refine ⟨j, hj, a, r, ?_, hr⟩
      rw [← hentry]
      exact List.getElem?_append_left (List.getElem?_eq_some_iff.mp hentry).1
    · exact absurd heq.symm (hdirect ancestor)
    · cases heq
      refine ⟨l.skips.length, hlt, id, reason, ?_, hdirect, hg.mem_descendants_iff.mp hx, rfl⟩
      simp [CandidateGraph.reject]

/-! ## Including a package -/

theorem mem_remaining {block : List (Fin g.size)} {m : Fin g.size} :
    m ∈ g.remaining block id ↔ m = id ∨ m ∈ g.ancestorsOf id ∧ m ∉ block := by
  simp [CandidateGraph.remaining, or_comm]

theorem not_mem_block_of_mem_remaining {block : List (Fin g.size)} (hid : id ∉ block)
    {m : Fin g.size} (hm : m ∈ g.remaining block id) : m ∉ block := by
  rcases mem_remaining.mp hm with rfl | ⟨-, hout⟩
  · exact hid
  · exact hout

theorem remaining_perm (block : List (Fin g.size)) (id : Fin g.size) :
    (g.remaining block id).Perm (id :: (g.ancestorsOf id).filter fun a => a ∉ block) :=
  (List.mergeSort_perm _ _).trans (List.perm_append_singleton _ _)

theorem remaining_nodup (hg : g.Consistent) (block : List (Fin g.size)) (id : Fin g.size) :
    (g.remaining block id).Nodup := by
  rw [(remaining_perm block id).nodup_iff, List.nodup_cons]
  exact ⟨fun hin => hg.not_mem_ancestors_self id (List.mem_filter.mp hin).1,
    (hg.ancestors_nodup id).filter _⟩

/-- Whoever depends on a skipped candidate is skipped, so no package holds one. -/
theorem Ledger.Lawful.not_skipped_of_mem_remaining (hg : g.Consistent) (h : l.Lawful)
    (hhead : head ∉ l.skipped) {m : Fin g.size} (hm : m ∈ g.remaining l.block head) :
    m ∉ l.skipped := by
  rcases mem_remaining.mp hm with rfl | ⟨hancestor, -⟩
  · exact hhead
  · exact fun hin => hhead (h.skipped_closed hin (hg.mem_descendants_iff.mpr hancestor))

theorem Ledger.Lawful.extend (hg : g.Consistent) (h : l.Lawful) (hblock : head ∉ l.block)
    (hskipped : head ∉ l.skipped) : (l.extend (g.remaining l.block head)).Lawful where
  block_nodup := by
    refine List.nodup_append.mpr ⟨h.block_nodup, remaining_nodup hg _ _, ?_⟩
    intro a ha b hb heq
    subst heq
    exact not_mem_block_of_mem_remaining hblock hb ha
  block_closed := by
    intro id a hid ha
    simp only [Ledger.extend, List.mem_append] at hid ⊢
    rcases hid with hid | hid
    · exact .inl (h.block_closed hid ha)
    · have hancestor : a ∈ g.ancestorsOf head := by
        rcases mem_remaining.mp hid with rfl | ⟨hid, -⟩
        · exact ha
        · exact hg.ancestors_trans ha hid
      by_cases hin : a ∈ l.block
      · exact .inl hin
      · exact .inr (mem_remaining.mpr (.inr ⟨hancestor, hin⟩))
  block_ordered := by
    refine List.pairwise_append.mpr ⟨h.block_ordered, hg.pairwise_mergeSort_depthLe _, ?_⟩
    intro a ha b hb hancestor
    exact not_mem_block_of_mem_remaining hblock hb (h.block_closed ha hancestor)
  skipped_nodup := h.skipped_nodup
  not_skipped := by
    intro id hid
    rcases List.mem_append.mp hid with hid | hid
    · exact h.not_skipped hid
    · exact h.not_skipped_of_mem_remaining hg hskipped hid
  skipped_closed := h.skipped_closed
  explained := h.explained

end Ledger

namespace RoundSetting

variable {s : RoundSetting} {package : List (Fin s.graph.size) → Fin s.graph.size → Package}
  {l : Ledger s.graph.size} {head : Fin s.graph.size}

/-! ## One decision -/

theorem direct_of_gate? {tx : Candidate} {reason : SkipReason} (h : s.gate? tx = some reason) :
    reason.Direct := by
  unfold gate? at h
  split at h
  · cases h
    simp [SkipReason.Direct]
  · obtain ⟨failure, -, rfl⟩ := Option.map_eq_some_iff.mp h
    simp [SkipReason.Direct]

theorem gate?_of_refusal? {id m : Fin s.graph.size} {reason : SkipReason}
    (h : s.refusal? m = some (id, reason)) :
    m = id ∧ s.gate? (s.graph.tx id) = some reason := by
  obtain ⟨found, hgate, heq⟩ := Option.map_eq_some_iff.mp h
  cases heq
  exact ⟨rfl, hgate⟩

/-- What a decision may do: reject the head or a member of its package that the gate refuses,
or include the package. -/
inductive Decides (s : RoundSetting)
    (package : List (Fin s.graph.size) → Fin s.graph.size → Package)
    (l : Ledger s.graph.size) (head : Fin s.graph.size) : Ledger s.graph.size → Prop
  | underpaid {required : UInt64}
      (hcheck : s.selector.limits.check (s.usageOf l.block) (package l.block head) =
        .underpays required) :
      Decides s package l head (s.graph.reject l head
        (.feeRate (package l.block head).fee (package l.block head).weight required))
  | overflowing {weight sigopCost : UInt64} (failures : Nat)
      (hcheck : s.selector.limits.check (s.usageOf l.block) (package l.block head) =
        .overflows weight sigopCost) :
      Decides s package l head { s.graph.reject l head (.limits weight sigopCost) with failures }
  | refused {id : Fin s.graph.size} {reason : SkipReason} (failures : Nat)
      (hcheck : s.selector.limits.check (s.usageOf l.block) (package l.block head) = .fits)
      (hmember : id ∈ s.graph.remaining l.block head)
      (hgate : s.gate? (s.graph.tx id) = some reason) :
      Decides s package l head { s.graph.reject l id reason with failures }
  | included
      (hcheck : s.selector.limits.check (s.usageOf l.block) (package l.block head) = .fits)
      (hgate : ∀ m ∈ s.graph.remaining l.block head, s.gate? (s.graph.tx m) = none) :
      Decides s package l head (l.extend (s.graph.remaining l.block head))

theorem failed_ledger (l : Ledger s.graph.size) :
    (s.failed l).1 = { l with failures := l.failures + 1 } := by
  simp only [failed]
  split <;> rfl

theorem judge_of_underpays {required : UInt64}
    (hcheck : s.selector.limits.check (s.usageOf l.block) (package l.block head) =
      .underpays required) :
    s.judge package l head = (s.graph.reject l head
      (.feeRate (package l.block head).fee (package l.block head).weight required), none) := by
  simp only [judge, hcheck]

theorem judge_of_overflows {weight sigopCost : UInt64}
    (hcheck : s.selector.limits.check (s.usageOf l.block) (package l.block head) =
      .overflows weight sigopCost) :
    s.judge package l head = s.failed (s.graph.reject l head (.limits weight sigopCost)) := by
  simp only [judge, hcheck]

theorem judge_of_refused {id : Fin s.graph.size} {reason : SkipReason}
    (hcheck : s.selector.limits.check (s.usageOf l.block) (package l.block head) = .fits)
    (hfound : (s.graph.remaining l.block head).findSome? s.refusal? = some (id, reason)) :
    s.judge package l head = s.failed (s.graph.reject l id reason) := by
  simp only [judge, hcheck, hfound]

theorem judge_of_admitted
    (hcheck : s.selector.limits.check (s.usageOf l.block) (package l.block head) = .fits)
    (hfound : (s.graph.remaining l.block head).findSome? s.refusal? = none) :
    s.judge package l head = (l.extend (s.graph.remaining l.block head), none) := by
  simp only [judge, hcheck, hfound]

theorem decides_judge (s : RoundSetting)
    (package : List (Fin s.graph.size) → Fin s.graph.size → Package)
    (l : Ledger s.graph.size) (head : Fin s.graph.size) :
    Decides s package l head (s.judge package l head).1 := by
  cases hcheck : s.selector.limits.check (s.usageOf l.block) (package l.block head) with
  | underpays required =>
      rw [judge_of_underpays hcheck]
      exact .underpaid hcheck
  | overflows weight sigopCost =>
      rw [judge_of_overflows hcheck, failed_ledger]
      exact .overflowing _ hcheck
  | fits =>
      cases hfound : (s.graph.remaining l.block head).findSome? s.refusal? with
      | some refusal =>
          obtain ⟨m, hm, hrefusal⟩ := List.exists_of_findSome?_eq_some hfound
          obtain ⟨rfl, hgate⟩ := gate?_of_refusal? hrefusal
          rw [judge_of_refused hcheck hfound, failed_ledger]
          exact .refused _ hcheck hm hgate
      | none =>
          rw [judge_of_admitted hcheck hfound]
          refine .included hcheck ?_
          intro m hm
          exact Option.map_eq_none_iff.mp (List.findSome?_eq_none_iff.mp hfound m hm)

theorem decides_of_judge {l' : Ledger s.graph.size} {stop : Option StopReason}
    (h : s.judge package l head = (l', stop)) : Decides s package l head l' := by
  have hd := decides_judge s package l head
  rwa [h] at hd

namespace Decides

variable {l' : Ledger s.graph.size} (hd : Decides s package l head l')
include hd

theorem considered_eq : l'.considered = l.considered := by
  cases hd <;> rfl

theorem lawful (hg : s.graph.Consistent) (h : l.Lawful) (hblock : head ∉ l.block)
    (hskipped : head ∉ l.skipped) : l'.Lawful := by
  cases hd with
  | underpaid hcheck => exact h.reject hg hblock hskipped (by simp [SkipReason.Direct])
  | overflowing failures hcheck =>
      exact (h.reject hg hblock hskipped (by simp [SkipReason.Direct])).congr rfl rfl
  | refused failures hcheck hmember hgate =>
      have hout := not_mem_block_of_mem_remaining hblock hmember
      have hfree := h.not_skipped_of_mem_remaining hg hskipped hmember
      exact (h.reject hg hout hfree (direct_of_gate? hgate)).congr rfl rfl
  | included hcheck hgate => exact h.extend hg hblock hskipped

/-- The block stays as it is, or a package that fits and passes the gate stands behind it. -/
theorem block_cases : l'.block = l.block ∨
    l'.block = l.block ++ s.graph.remaining l.block head ∧
      s.selector.limits.check (s.usageOf l.block) (package l.block head) = .fits ∧
      ∀ m ∈ s.graph.remaining l.block head, s.gate? (s.graph.tx m) = none := by
  cases hd with
  | underpaid hcheck => exact .inl rfl
  | overflowing failures hcheck => exact .inl rfl
  | refused failures hcheck hmember hgate => exact .inl rfl
  | included hcheck hgate => exact .inr ⟨rfl, hcheck, hgate⟩

/-- A decision only adds to what was decided. -/
theorem begins : l.Begins l' := by
  cases hd with
  | underpaid hcheck =>
      exact ⟨List.prefix_refl _, List.prefix_append _ _, List.prefix_refl _⟩
  | overflowing failures hcheck =>
      exact ⟨List.prefix_refl _, List.prefix_append _ _, List.prefix_refl _⟩
  | refused failures hcheck hmember hgate =>
      exact ⟨List.prefix_refl _, List.prefix_append _ _, List.prefix_refl _⟩
  | included hcheck hgate =>
      exact ⟨List.prefix_append _ _, List.prefix_refl _, List.prefix_refl _⟩

/-- Decisions are final. -/
theorem mono : (∀ id ∈ l.block, id ∈ l'.block) ∧ ∀ id ∈ l.skipped, id ∈ l'.skipped := by
  have hbegins := hd.begins
  constructor
  · intro id hid
    exact hbegins.block.subset hid
  · intro id hid
    exact (hbegins.skips.map _).subset hid

/-- The head is decided about, also when a member of its package is refused in its place. -/
theorem head_settled (hg : s.graph.Consistent) (hblock : head ∉ l.block)
    (hskipped : head ∉ l.skipped) : head ∈ l'.block ∨ head ∈ l'.skipped := by
  cases hd with
  | underpaid hcheck => exact .inr (mem_skipped_reject.mpr (.inr (.inl rfl)))
  | overflowing failures hcheck => exact .inr (mem_skipped_reject.mpr (.inr (.inl rfl)))
  | @refused id reason failures hcheck hmember hgate =>
      refine .inr (mem_skipped_reject.mpr (.inr ?_))
      rcases mem_remaining.mp hmember with rfl | ⟨hancestor, -⟩
      · exact .inl rfl
      · exact .inr ⟨hg.mem_descendants_iff.mpr hancestor, hblock, hskipped⟩
  | included hcheck hgate =>
      exact .inl (List.mem_append_right _ (mem_remaining.mpr (.inl rfl)))

end Decides

/-! ## Whole rounds -/

theorem isOpen_of_best? (h : s.best? package l = some head) : l.isOpen head = true :=
  (List.mem_filter.mp (List.mem_of_find?_eq_some h)).2

theorem greedy_of_none (budget : Nat) (h : s.best? package l = none) :
    s.greedy package budget l = (l, .poolExhausted) := by
  unfold greedy
  simp only [h]

theorem greedy_zero (h : s.best? package l = some head) :
    s.greedy package 0 l = (l, .considerationBudgetExhausted) := by
  unfold greedy
  simp only [h]

theorem greedy_succ (budget : Nat) (h : s.best? package l = some head) :
    s.greedy package (budget + 1) l =
      match s.judge package (l.consider head) head with
      | (l, some stop) => (l, stop)
      | (l, none) => s.greedy package budget l := by
  rw [greedy]
  cases hbest : s.best? package l with
  | none =>
      rw [h] at hbest
      contradiction
  | some found =>
      rw [h] at hbest
      cases hbest
      rfl

theorem greedy_next {next : Ledger s.graph.size} (budget : Nat)
    (hbest : s.best? package l = some head)
    (hjudge : s.judge package (l.consider head) head = (next, none)) :
    s.greedy package (budget + 1) l = s.greedy package budget next := by
  rw [greedy_succ budget hbest, hjudge]

/-- What every decision about the best candidate preserves holds when the round ends. -/
theorem greedy_preserves_best {P : Ledger s.graph.size → Prop}
    (hstep : ∀ {l l' head}, P l → s.best? package l = some head →
      Decides s package (l.consider head) head l' → P l')
    (budget : Nat) (h : P l) : P (s.greedy package budget l).1 := by
  fun_induction s.greedy package budget l with
  | case1 budget l hbest => exact h
  | case2 l head hbest => exact h
  | case3 l head hbest budget next stop hjudge => exact hstep h hbest (decides_of_judge hjudge)
  | case4 l head hbest budget next hjudge ih => exact ih (hstep h hbest (decides_of_judge hjudge))

/-- What every decision about an open candidate preserves holds when the round ends. -/
theorem greedy_preserves {P : Ledger s.graph.size → Prop}
    (hstep : ∀ {l l' head}, P l → l.isOpen head = true →
      Decides s package (l.consider head) head l' → P l')
    (budget : Nat) (h : P l) : P (s.greedy package budget l).1 :=
  greedy_preserves_best (fun h hbest hd => hstep h (isOpen_of_best? hbest) hd) budget h

/-- A round only adds to what was decided when it began. -/
theorem begins_greedy (budget : Nat) (l : Ledger s.graph.size) :
    l.Begins (s.greedy package budget l).1 := by
  apply greedy_preserves (P := fun other => l.Begins other) ?_ budget (.refl l)
  intro before after head hbegins _ hd
  exact (hbegins.trans (Ledger.begins_consider before head)).trans hd.begins

/-- The ledger between two decisions. -/
structure Settled (l : Ledger s.graph.size) : Prop where
  lawful : l.Lawful
  considered_nodup : l.considered.Nodup
  considered_settled : ∀ id ∈ l.considered, id ∈ l.block ∨ id ∈ l.skipped

theorem Settled.empty : Settled (.empty : Ledger s.graph.size) :=
  ⟨.empty, .nil, fun _ h => absurd h (by simp [Ledger.empty])⟩

theorem Settled.step (hg : s.graph.Consistent) (h : Settled l) (hopen : l.isOpen head = true)
    {l' : Ledger s.graph.size} (hd : Decides s package (l.consider head) head l') : Settled l' := by
  obtain ⟨hblock, hskipped, hconsidered⟩ := Ledger.isOpen_iff.mp hopen
  refine ⟨?_, ?_, ?_⟩
  · exact hd.lawful hg (h.lawful.congr rfl rfl) hblock hskipped
  · rw [hd.considered_eq]
    refine List.nodup_append.mpr ⟨h.considered_nodup, by simp, ?_⟩
    intro a ha b hb heq
    rw [List.mem_singleton.mp hb] at heq
    exact hconsidered (heq ▸ ha)
  · intro id hid
    rw [hd.considered_eq] at hid
    rcases List.mem_append.mp hid with hid | hid
    · exact (h.considered_settled id hid).imp (hd.mono.1 id) (hd.mono.2 id)
    · rw [List.mem_singleton.mp hid]
      exact hd.head_settled hg hblock hskipped

/-- The final decisions of a round are lawful. -/
theorem settled_greedy (hg : s.graph.Consistent) (budget : Nat) (h : Settled l) :
    Settled (s.greedy package budget l).1 :=
  greedy_preserves (fun h hopen hd => h.step hg hopen hd) budget h

end RoundSetting

end BlockProduction

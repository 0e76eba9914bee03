import BlockProduction.Proofs.Selection.Simulation

/-!
# How rounds end

A round over an accepted view ends with a report, which tells what greedy
selection decided.  Whoever is in the block has passed the gate.  The reason for
the end tells what is left: nobody when the pool is exhausted, somebody when the
budget is.
-/

namespace BlockProduction

/-- A reason that the gate gives. -/
def SkipReason.Inadmissible : SkipReason → Prop
  | finality _ => True
  | missingInputs => True
  | _ => False

/-! ## Lookups -/

section

variable {α β : Type} {f : α → Option β} {as : List α}

/-- A list of lookups succeeds with what each of them finds. -/
theorem mapM_eq_some_iff {bs : List β} :
    as.mapM f = some bs ↔ List.Forall₂ (fun a b => f a = some b) as bs := by
  induction as generalizing bs with
  | nil => simp [eq_comm]
  | cons a as ih =>
      rw [List.mapM_cons]
      constructor
      · intro h
        obtain ⟨b, hb, h⟩ := Option.bind_eq_some_iff.mp h
        obtain ⟨rest, hrest, h⟩ := Option.bind_eq_some_iff.mp h
        cases h
        exact .cons hb (ih.mp hrest)
      · rintro (_ | ⟨hb, hrest⟩)
        rw [hb, ih.mpr hrest]
        rfl

theorem mapM_eq_none_iff : as.mapM f = none ↔ ∃ a ∈ as, f a = none := by
  induction as with
  | nil => simp
  | cons a as ih =>
      rw [List.mapM_cons, List.exists_mem_cons_iff, ← ih]
      cases f a with
      | none => simp
      | some b =>
          cases as.mapM f with
          | none => simp
          | some bs => simp

end

namespace RoundSetting

variable {s : RoundSetting} {package : List (Fin s.graph.size) → Fin s.graph.size → Package}
  {l : Ledger s.graph.size} {id head : Fin s.graph.size}

/-- What a whole round decides, and why it ends. -/
def outcome (s : RoundSetting) : Ledger s.graph.size × StopReason :=
  s.greedy s.graph.reduced s.selector.maxConsidered.toNat .empty

theorem select_eq_outcome (s : RoundSetting) {view : PoolView}
    (hview : CandidateGraph.ofView view = .ok s.graph) (hweights : s.WeightsFit) :
    s.selector.select view s.confirmations s.context =
      .ok (s.reportOf s.outcome.1 s.outcome.2) := by
  have hg := CandidateGraph.consistent_of_ofView hview
  simp only [Selector.select, hview]
  exact run_eq_greedy hg hweights _ (matches_start hg) .empty

theorem settled_outcome (hg : s.graph.Consistent) : Settled s.outcome.1 :=
  settled_greedy hg _ .empty

/-- What every decision of a round preserves holds when the round ends. -/
theorem outcome_preserves {P : Ledger s.graph.size → Prop} (hg : s.graph.Consistent)
    (hstep : ∀ {l l' head}, Settled l → P l → s.best? s.graph.reduced l = some head →
      Decides s s.graph.reduced (l.consider head) head l' → P l')
    (h : P .empty) : P s.outcome.1 := by
  have hboth : Settled s.outcome.1 ∧ P s.outcome.1 :=
    greedy_preserves_best (P := fun l => Settled l ∧ P l)
      (fun hl hbest hd =>
        ⟨hl.1.step hg (isOpen_of_best? hbest) hd, hstep hl.1 hl.2 hbest hd⟩)
      _ ⟨.empty, h⟩
  exact hboth.2

/-! ## The gate -/

/-- Everybody in the block has passed the gate. -/
def Admitted (l : Ledger s.graph.size) : Prop :=
  ∀ id ∈ l.block, s.gate? (s.graph.tx id) = none

theorem Admitted.step (h : Admitted l) {l' : Ledger s.graph.size}
    (hd : Decides s package (l.consider head) head l') : Admitted l' := by
  intro id hid
  rcases hd.block_cases with hsame | ⟨hblock, -, hgate⟩
  · rw [hsame] at hid
    exact h id hid
  · rw [hblock] at hid
    rcases List.mem_append.mp hid with hold | hnew
    · exact h id hold
    · exact hgate id hnew

theorem admitted_outcome (s : RoundSetting) : Admitted s.outcome.1 :=
  greedy_preserves (fun h _ hd => h.step hd) _
    fun id hid => absurd hid (by simp [Ledger.empty])

theorem inadmissible_of_gate? {tx : Candidate} {reason : SkipReason}
    (h : s.gate? tx = some reason) : reason.Inadmissible := by
  unfold gate? at h
  split at h
  · cases h
    exact trivial
  · obtain ⟨failure, -, rfl⟩ := Option.map_eq_some_iff.mp h
    exact trivial

/-- Whoever is skipped for a reason of the gate was refused by the gate for that reason. -/
def Refused (l : Ledger s.graph.size) : Prop :=
  ∀ entry ∈ l.skips, entry.2.Inadmissible → s.gate? (s.graph.tx entry.1) = some entry.2

theorem Refused.reject (h : Refused l) {reason : SkipReason}
    (hgate : reason.Inadmissible → s.gate? (s.graph.tx id) = some reason) :
    Refused (s.graph.reject l id reason) := by
  rintro ⟨x, r⟩ hentry hr
  obtain ⟨i, hi⟩ := List.getElem?_of_mem hentry
  rcases getElem?_skips_reject hi with hold | ⟨-, rfl, rfl⟩ | ⟨-, -, rfl⟩
  · exact h _ (List.mem_of_getElem? hold) hr
  · exact hgate hr
  · exact hr.elim

theorem Refused.step (h : Refused l) {l' : Ledger s.graph.size}
    (hd : Decides s package (l.consider head) head l') : Refused l' := by
  have hconsider : Refused (l.consider head) := h
  cases hd with
  | underpaid hcheck => exact hconsider.reject fun hr => hr.elim
  | @overflowing weight sigopCost failures hcheck =>
      have hreject : Refused (s.graph.reject (l.consider head) head (.limits weight sigopCost)) :=
        hconsider.reject fun hr => hr.elim
      exact hreject
  | refused failures hcheck hmember hgate => exact hconsider.reject fun _ => hgate
  | included hcheck hgate => exact h

theorem refused_outcome (s : RoundSetting) : Refused s.outcome.1 :=
  greedy_preserves (fun h _ hd => h.step hd) _
    fun entry hentry => absurd hentry (by simp [Ledger.empty])

/-- What the gate lets through spends candidates and confirmed outputs only. -/
theorem confirmed_of_gate? {tx : Candidate} (h : s.gate? tx = none) {input : TxInput}
    (hinput : input ∈ tx.inputs) : (s.graph.idOf? input.prevout.hash).isSome = true ∨
      (s.confirmations input.prevout).isSome = true := by
  have hmapped : tx.inputs.mapM s.confirmation? ≠ none := by
    intro hnone
    rw [gate?, hnone] at h
    nomatch h
  have hone : s.confirmation? input ≠ none :=
    fun hnone => hmapped (mapM_eq_none_iff.mpr ⟨input, hinput, hnone⟩)
  unfold confirmation? at hone
  by_cases hknown : (s.graph.idOf? input.prevout.hash).isSome = true
  · exact .inl hknown
  · rw [if_neg hknown] at hone
    exact .inr (Option.isSome_iff_ne_none.mpr hone)

/-! ## The reason for the end -/

theorem best?_eq_none_iff : s.best? package l = none ↔ ∀ id, l.isOpen id = false := by
  refine ⟨fun hnone id => ?_, best?_eq_none⟩
  rw [Bool.eq_false_iff]
  intro hopen
  have hmem : id ∈ s.graph.ids.filter l.isOpen :=
    List.mem_filter.mpr ⟨CandidateGraph.mem_ids id, hopen⟩
  obtain ⟨head, hhead, hleast⟩ := Finset.exists_min_image (s.graph.ids.filter l.isOpen).toFinset
    (fun id => (RankedQueue.keyOf s.graph (package l.block id) id).standing)
    ⟨id, List.mem_toFinset.mpr hmem⟩
  refine List.find?_eq_none.mp hnone head (List.mem_toFinset.mp hhead) ?_
  refine List.all_eq_true.mpr fun other hother => ?_
  rw [RankedQueue.leads_iff_standing]
  exact hleast other (List.mem_toFinset.mpr hother)

theorem judge_stop (s : RoundSetting)
    (package : List (Fin s.graph.size) → Fin s.graph.size → Package)
    (l : Ledger s.graph.size) (head : Fin s.graph.size) :
    (s.judge package l head).2 = none ∨ (s.judge package l head).2 = some .blockFull := by
  have hfailed : ∀ l, (s.failed l).2 = none ∨ (s.failed l).2 = some .blockFull := by
    intro l
    simp only [failed]
    split
    · exact .inr rfl
    · exact .inl rfl
  cases hcheck : s.selector.limits.check (s.usageOf l.block) (package l.block head) with
  | underpays required =>
      rw [judge_of_underpays hcheck]
      exact .inl rfl
  | overflows weight sigopCost =>
      rw [judge_of_overflows hcheck]
      exact hfailed _
  | fits =>
      cases hfound : (s.graph.remaining l.block head).findSome? s.refusal? with
      | some refusal =>
          rw [judge_of_refused hcheck hfound]
          exact hfailed _
      | none =>
          rw [judge_of_admitted hcheck hfound]
          exact .inl rfl

/-- What the reason for the end of a round says about `budget` decisions after `before`. -/
structure Ends (before : Nat) (budget : Nat) (l : Ledger s.graph.size) (stop : StopReason) :
    Prop where
  considered_le : l.considered.length ≤ before + budget
  exhausted : stop = .poolExhausted → ∀ id, l.isOpen id = false
  spent : stop = .considerationBudgetExhausted →
    l.considered.length = before + budget ∧ ∃ id, l.isOpen id = true

theorem ends_greedy (budget : Nat) (l : Ledger s.graph.size) :
    Ends l.considered.length budget (s.greedy package budget l).1
      (s.greedy package budget l).2 := by
  have hnext : ∀ {l next : Ledger s.graph.size} {head stop},
      s.judge package (l.consider head) head = (next, stop) →
      next.considered.length = l.considered.length + 1 := by
    intro l next head stop hjudge
    rw [(decides_of_judge hjudge).considered_eq]
    simp [Ledger.consider]
  fun_induction s.greedy package budget l with
  | case1 budget l hbest =>
      exact ⟨Nat.le_add_right _ _, fun _ => best?_eq_none_iff.mp hbest, fun h => by contradiction⟩
  | case2 l head hbest =>
      exact ⟨le_rfl, fun h => by contradiction, fun _ => ⟨rfl, head, isOpen_of_best? hbest⟩⟩
  | case3 l head hbest budget next stop hjudge =>
      have hlength := hnext hjudge
      have hfull := judge_stop s package (l.consider head) head
      rw [hjudge] at hfull
      have hstop : stop = .blockFull := by simpa using hfull
      subst hstop
      refine ⟨?_, fun h => by contradiction, fun h => by contradiction⟩
      show next.considered.length ≤ _
      omega
  | case4 l head hbest budget next hjudge ih =>
      have hlength := hnext hjudge
      refine ⟨?_, ih.exhausted, fun h => ⟨?_, (ih.spent h).2⟩⟩
      · have hle := ih.considered_le
        omega
      · have heq := (ih.spent h).1
        omega

theorem ends_outcome (s : RoundSetting) :
    Ends 0 s.selector.maxConsidered.toNat s.outcome.1 s.outcome.2 :=
  ends_greedy _ .empty

end RoundSetting

end BlockProduction

import BlockProduction.Proofs.Assembler.History

/-!
# Searches side by side

Any number of calls may ask one assembler for searches at the same time.  A call
goes through parts, each of which holds the lock of the slot or that of the status,
and between two parts of one call there may be parts of others.  At most one call
holds the slot.  The status tells of its search until a call that has given the
slot back before records what became of it.
-/

namespace BlockProduction

/-! ## Calls in parts -/

/-- How far a call for a search has come. -/
inductive SearchCall where
  | waiting
  /-- It holds the slot, and the status does not tell of it yet. -/
  | claimed (flag : CancelFlag)
  | searching (flag : CancelFlag)
  /-- The search has ended and the slot is free; what came of it is still to be recorded. -/
  | returned (result : Except Error Mined)
  /-- The caller is gone and the slot is free; that is still to be recorded. -/
  | abandoned (flag : CancelFlag)
  | over

/-- A part of a call. -/
inductive SearchCall.Part where
  | claim
  | mark
  /-- The search has come to a result: free the slot. -/
  | settle (result : Except Error Mined)
  /-- The caller is gone: free the slot. -/
  | drop
  | record (ports : Ports)

namespace SearchCall

/-- The flag of a call that holds the slot. -/
def held? : SearchCall → Option CancelFlag
  | .claimed flag => some flag
  | .searching flag => some flag
  | _ => none

/-- What a part of a call does to the assembler and to the call. -/
inductive Step (a : Assembler) : SearchCall → Part → Assembler → SearchCall → Prop
  | refuse {e : Error} (h : a.claim = .error e) : Step a .waiting .claim a .over
  | claim {flag : CancelFlag} {a' : Assembler} (h : a.claim = .ok (flag, a')) :
      Step a .waiting .claim a' (.claimed flag)
  | mark (flag : CancelFlag) : Step a (.claimed flag) .mark a.markHashing (.searching flag)
  | settle (flag : CancelFlag) (result : Except Error Mined) :
      Step a (.searching flag) (.settle result) a.release (.returned result)
  | drop (flag : CancelFlag) : Step a (.searching flag) .drop a.release (.abandoned flag)
  | conclude (result : Except Error Mined) (ports : Ports) :
      Step a (.returned result) (.record ports) (a.conclude ports result) .over
  | concludeAbandoned (flag : CancelFlag) (ports : Ports) :
      Step a (.abandoned flag) (.record ports) (a.concludeAbandoned flag) .over

end SearchCall

/-- An assembler and the calls for searches on it. -/
structure Overlap where
  assembler : Assembler
  calls : List SearchCall

namespace Overlap

inductive Turn where
  /-- A call goes on with its next part. -/
  | call (i : Nat) (part : SearchCall.Part)
  /-- The running search is told to stop. -/
  | cancel
  /-- Searches and callers raise and lower flags. -/
  | flags (flags : FlagStore)
  /-- A round is built besides. -/
  | build (ports : Ports)

/-- Whether a turn records what became of a search. -/
def Turn.Records : Turn → Prop
  | .call _ (.record _) => True
  | _ => False

inductive Step (o : Overlap) : Turn → Overlap → Prop
  | call {i : Nat} {call call' : SearchCall} {part : SearchCall.Part} {a' : Assembler}
      (h : o.calls[i]? = some call) (hstep : call.Step o.assembler part a' call') :
      Step o (.call i part) ⟨a', o.calls.set i call'⟩
  | cancel : Step o .cancel { o with assembler := o.assembler.cancel.2 }
  | flags (flags : FlagStore) :
      Step o (.flags flags) { o with assembler := { o.assembler with flags } }
  | build (ports : Ports) : Step o (.build ports) { o with assembler := (o.assembler.build ports).2 }

/-- One turn after the other. -/
inductive Runs (o : Overlap) : List Turn → Overlap → Prop
  | start : Runs o [] o
  | step {turns : List Turn} {t : Turn} {o' o'' : Overlap} (h : Runs o turns o')
      (hstep : o'.Step t o'') : Runs o (turns ++ [t]) o''

/-- Calls that have not claimed the slot yet. -/
def start (a : Assembler) (count : Nat) : Overlap :=
  ⟨a, List.replicate count .waiting⟩

/-- A call holds the slot with a flag. -/
def Holds (o : Overlap) (i : Nat) (flag : CancelFlag) : Prop :=
  ∃ call, o.calls[i]? = some call ∧ call.held? = some flag

/-- At most one call holds the slot, and the slot shows its flag. -/
structure Exclusive (o : Overlap) : Prop where
  slot_eq : ∀ {i flag}, o.Holds i flag → o.assembler.slot? = some flag
  unique : ∀ {i j flag other}, o.Holds i flag → o.Holds j other → i = j

/-- The status tells that a search is running. -/
def Tells (o : Overlap) : Prop :=
  o.assembler.status.mining = true ∧ o.assembler.status.miningState = .hashing

/-! ## The slot -/

variable {o o' : Overlap} {i j : Nat} {call call' : SearchCall} {flag : CancelFlag} {a' : Assembler}

theorem holds_set (h : o.calls[i]? = some call) :
    Holds ⟨a', o.calls.set i call'⟩ j flag ↔
      if j = i then call'.held? = some flag else o.Holds j flag := by
  have hlt : i < o.calls.length := (List.getElem?_eq_some_iff.mp h).1
  unfold Holds
  by_cases hij : j = i
  · subst hij
    simp [hlt]
  · rw [if_neg hij]
    simp only [List.getElem?_set_ne (Ne.symm hij)]

theorem exclusive_start (a : Assembler) (count : Nat) : (start a count).Exclusive := by
  have hnone : ∀ i flag, ¬(start a count).Holds i flag := by
    rintro i flag ⟨call, hcall, hheld⟩
    have hwaiting := List.eq_of_mem_replicate (List.mem_of_getElem? hcall)
    rw [hwaiting] at hheld
    nomatch hheld
  exact ⟨fun h => absurd h (hnone _ _), fun h => absurd h (hnone _ _)⟩

/-- While a call holds the slot nobody else gets it. -/
theorem claim_eq_ok_iff {a : Assembler} : a.claim = .ok (flag, a') ↔
    a.slot? = none ∧ a.flags.fresh.1 = flag ∧
      { a with slot? := some a.flags.fresh.1, flags := a.flags.fresh.2 } = a' := by
  unfold Assembler.claim
  cases a.slot? with
  | none => simp
  | some held => simp

/-- Nobody holds the slot while it is free. -/
theorem Exclusive.not_holds (h : o.Exclusive) (hfree : o.assembler.slot? = none) : ¬o.Holds i flag := by
  intro hholds
  rw [h.slot_eq hholds] at hfree
  nomatch hfree

/-- A call that gets no slot by its part leaves it to the others. -/
theorem Exclusive.keep (h : o.Exclusive) (hcall : o.calls[i]? = some call)
    (hslot : a'.slot? = o.assembler.slot?)
    (hheld : ∀ flag, call'.held? = some flag → call.held? = some flag) :
    Exclusive ⟨a', o.calls.set i call'⟩ := by
  have hbefore : ∀ {j flag}, Holds ⟨a', o.calls.set i call'⟩ j flag → o.Holds j flag := by
    intro j flag hholds
    rw [holds_set hcall] at hholds
    by_cases hij : j = i
    · rw [if_pos hij] at hholds
      subst hij
      exact ⟨call, hcall, hheld flag hholds⟩
    · rwa [if_neg hij] at hholds
  refine ⟨fun hholds => ?_, fun hi hj => h.unique (hbefore hi) (hbefore hj)⟩
  show a'.slot? = _
  rw [hslot]
  exact h.slot_eq (hbefore hholds)

/-- When the call that holds the slot frees it, no call holds it. -/
theorem Exclusive.free (h : o.Exclusive) (hcall : o.calls[i]? = some call)
    (hheld : call.held? = some flag) (hover : call'.held? = none) :
    Exclusive ⟨a', o.calls.set i call'⟩ := by
  have hnone : ∀ {j flag}, ¬Holds ⟨a', o.calls.set i call'⟩ j flag := by
    intro j flag hholds
    rw [holds_set hcall] at hholds
    by_cases hij : j = i
    · rw [if_pos hij, hover] at hholds
      nomatch hholds
    · rw [if_neg hij] at hholds
      exact hij (h.unique hholds ⟨call, hcall, hheld⟩)
  exact ⟨fun hholds => absurd hholds hnone, fun hholds => absurd hholds hnone⟩

/-- The call that claims the free slot is the only one to hold it. -/
theorem Exclusive.claim (h : o.Exclusive) (hcall : o.calls[i]? = some call)
    (hfree : o.assembler.slot? = none) (hslot : a'.slot? = some flag) :
    Exclusive ⟨a', o.calls.set i (.claimed flag)⟩ := by
  have honly : ∀ {j other}, Holds ⟨a', o.calls.set i (.claimed flag)⟩ j other →
      j = i ∧ flag = other := by
    intro j other hholds
    rw [holds_set hcall] at hholds
    by_cases hij : j = i
    · rw [if_pos hij] at hholds
      exact ⟨hij, Option.some.inj hholds⟩
    · rw [if_neg hij] at hholds
      exact absurd hholds (h.not_holds hfree)
  refine ⟨fun hholds => ?_, fun hi hj => (honly hi).1.trans (honly hj).1.symm⟩
  rw [← (honly hholds).2]
  exact hslot

theorem Exclusive.congr (h : o.Exclusive) (hslot : a'.slot? = o.assembler.slot?) :
    Exclusive { o with assembler := a' } where
  slot_eq := fun hholds => hslot.trans (h.slot_eq hholds)
  unique := h.unique

theorem slot?_conclude (a : Assembler) (ports : Ports) (result : Except Error Mined) :
    (a.conclude ports result).slot? = a.slot? := by
  unfold Assembler.conclude
  split <;> rfl

theorem mining_conclude (a : Assembler) (ports : Ports) (result : Except Error Mined) :
    (a.conclude ports result).status.mining = false := by
  unfold Assembler.conclude
  split <;> rfl

/-- An attempt to stop the search leaves the slot and the status as they are. -/
theorem cancel_keeps (a : Assembler) :
    a.cancel.2.slot? = a.slot? ∧ a.cancel.2.status = a.status := by
  unfold Assembler.cancel
  cases hslot : a.slot? with
  | none => exact ⟨hslot, rfl⟩
  | some flag => exact ⟨rfl, rfl⟩

variable {t : Turn}

theorem Exclusive.step (h : o.Exclusive) (ht : o.Step t o') : o'.Exclusive := by
  cases ht with
  | cancel => exact h.congr (cancel_keeps _).1
  | flags flags => exact h.congr rfl
  | build ports => exact h.congr (o.assembler.build_keepsSearches ports).slot_eq
  | call hcall hstep =>
      cases hstep with
      | refuse hclaim => exact h.keep hcall rfl fun _ hheld => by nomatch hheld
      | claim hclaim =>
          obtain ⟨hfree, rfl, rfl⟩ := claim_eq_ok_iff.mp hclaim
          exact h.claim hcall hfree rfl
      | mark flag => exact h.keep hcall rfl fun _ hheld => hheld
      | settle flag result => exact h.free hcall rfl rfl
      | drop flag => exact h.free hcall rfl rfl
      | conclude result ports =>
          exact h.keep hcall (slot?_conclude _ ports result) fun _ hheld => by nomatch hheld
      | concludeAbandoned flag ports => exact h.keep hcall rfl fun _ hheld => by nomatch hheld

/-! ## What the status tells -/

/-- Who searches after a turn has searched before it, or has just said so in the status. -/
theorem Step.searching_cases (ht : o.Step t o') (hsearching : o'.calls[i]? = some (.searching flag)) :
    o.calls[i]? = some (.searching flag) ∨ t = .call i .mark ∧ o'.Tells := by
  cases ht with
  | cancel => exact .inl hsearching
  | flags flags => exact .inl hsearching
  | build ports => exact .inl hsearching
  | @call j _ _ _ _ hcall hstep =>
      have hlt := (List.getElem?_eq_some_iff.mp hcall).1
      by_cases hij : i = j
      · subst hij
        simp only [List.getElem?_set_self hlt, Option.some.injEq] at hsearching
        subst hsearching
        cases hstep
        exact .inr ⟨rfl, rfl, rfl⟩
      · rw [List.getElem?_set_ne (Ne.symm hij)] at hsearching
        exact .inl hsearching

/-- While a search goes on, only the record of another one changes what the status tells of it. -/
theorem Step.tells_iff (h : o.Exclusive) (ht : o.Step t o')
    (hbefore : o.calls[i]? = some (.searching flag))
    (hafter : o'.calls[i]? = some (.searching flag)) : o'.Tells ↔ o.Tells ∧ ¬t.Records := by
  have hholds : o.Holds i flag := ⟨_, hbefore, rfl⟩
  cases ht with
  | cancel =>
      have hstatus := (cancel_keeps o.assembler).2
      simp only [Tells, hstatus, Turn.Records, not_false_eq_true, and_true]
  | flags flags => simp [Tells, Turn.Records]
  | build ports =>
      have hkeeps := o.assembler.build_keepsSearches ports
      simp only [Tells, hkeeps.mining_eq, hkeeps.miningState_eq, Turn.Records, not_false_eq_true, and_true]
  | @call j _ _ _ _ hcall hstep =>
      have hlt := (List.getElem?_eq_some_iff.mp hcall).1
      -- a call that holds the slot is the one that searches
      have hsame : ∀ {other}, o.Holds j other → o.calls[j]? = some (.searching flag) := by
        intro other hother
        rw [← h.unique hholds hother]
        exact hbefore
      cases hstep with
      | refuse hclaim => simp [Tells, Turn.Records]
      | claim hclaim =>
          obtain ⟨hfree, -, -⟩ := claim_eq_ok_iff.mp hclaim
          exact absurd hholds (h.not_holds hfree)
      | mark other =>
          have hother := hsame ⟨_, hcall, rfl⟩
          rw [hcall] at hother
          nomatch hother
      | settle other result =>
          obtain rfl := h.unique hholds ⟨_, hcall, rfl⟩
          rw [List.getElem?_set_self hlt] at hafter
          nomatch hafter
      | drop other =>
          obtain rfl := h.unique hholds ⟨_, hcall, rfl⟩
          rw [List.getElem?_set_self hlt] at hafter
          nomatch hafter
      | conclude result ports =>
          simp [Tells, Turn.Records, mining_conclude]
      | concludeAbandoned other ports => simp [Tells, Turn.Records, Assembler.concludeAbandoned]

/-- In every course of events at most one call holds the slot.  The status tells of the one that
searches exactly until another call, which has given the slot back before, records its end. -/
theorem search_told {a : Assembler} {count : Nat} {turns : List Turn}
    (h : (start a count).Runs turns o) : o.Exclusive ∧
      ∀ i flag, o.calls[i]? = some (.searching flag) → ∃ before after,
        turns = before ++ .call i .mark :: after ∧ (o.Tells ↔ ∀ t ∈ after, ¬t.Records) := by
  induction h with
  | start =>
      refine ⟨exclusive_start a count, fun i flag hcall => ?_⟩
      have hwaiting := List.eq_of_mem_replicate (List.mem_of_getElem? hcall)
      nomatch hwaiting
  | @step turns t o o' hruns ht ih =>
      obtain ⟨hexclusive, htold⟩ := ih
      refine ⟨hexclusive.step ht, fun i flag hcall => ?_⟩
      rcases ht.searching_cases hcall with hbefore | ⟨rfl, htells⟩
      · obtain ⟨before, after, rfl, hiff⟩ := htold i flag hbefore
        refine ⟨before, after ++ [t], by simp, ?_⟩
        rw [ht.tells_iff hexclusive hbefore hcall, hiff]
        simp [or_imp, forall_and]
      · exact ⟨turns, [], rfl, by simpa using htells⟩

/-! ## One call, and two -/

theorem claim_of_free {a : Assembler} (hfree : a.slot? = none) : a.claim =
    .ok (a.flags.fresh.1, { a with slot? := some a.flags.fresh.1, flags := a.flags.fresh.2 }) :=
  claim_eq_ok_iff.mpr ⟨hfree, rfl, rfl⟩

/-- A call that nobody comes between is the operation of the assembler. -/
theorem runs_mine {a : Assembler} (hfree : a.slot? = none) (ports : Ports) (template : Template) :
    ∃ flags result,
      (a.mine ports template).1 =
        result.map (fun mined => ⟨template, mined.header, mined.hash⟩) ∧
      (start a 1).Runs [.call 0 .claim, .call 0 .mark, .flags flags, .call 0 (.settle result),
        .call 0 (.record ports)] ⟨(a.mine ports template).2, [.over]⟩ := by
  obtain ⟨flags, result, hmine⟩ := Assembler.mine_eq hfree ports template
  refine ⟨flags, result, by rw [hmine], ?_⟩
  rw [hmine]
  have hclaim := Runs.start.step (.call (o := start a 1) (i := 0) rfl (.claim (claim_of_free hfree)))
  have hmark := hclaim.step (.call (i := 0) rfl (.mark _))
  have hflags := hmark.step (.flags flags)
  have hsettle := hflags.step (.call (i := 0) rfl (.settle _ result))
  exact hsettle.step (.call (i := 0) rfl (.conclude _ ports))

/-- A second search begins after the first has freed the slot, and before its end is recorded. -/
def overtakingTurns (result : Except Error Mined) (ports : Ports) : List Turn :=
  [.call 0 .claim, .call 0 .mark, .cancel, .call 0 (.settle result), .call 1 .claim,
    .call 1 .mark, .call 0 (.record ports)]

theorem runs_overtakingTurns {a : Assembler} (hfree : a.slot? = none)
    (result : Except Error Mined) (ports : Ports) :
    ∃ o flag, (start a 2).Runs (overtakingTurns result ports) o ∧
      o.calls[1]? = some (.searching flag) ∧ o.assembler.status.mining = false := by
  have hclaim := Runs.start.step (.call (o := start a 2) (i := 0) rfl (.claim (claim_of_free hfree)))
  have hmark := hclaim.step (.call (i := 0) rfl (.mark _))
  have hcancel := hmark.step .cancel
  have hsettle := hcancel.step (.call (i := 0) rfl (.settle _ result))
  have hnext := hsettle.step (.call (i := 1) rfl (.claim rfl))
  have hsaid := hnext.step (.call (i := 1) rfl (.mark _))
  have hlate := hsaid.step (.call (i := 0) rfl (.conclude _ ports))
  exact ⟨_, _, hlate, rfl, mining_conclude _ ports result⟩

/-- A search that was told to stop is recorded too late: the status says that nobody searches while
the next search goes on. -/
theorem search_untold : ∃ fresh o flag, Assembler.ofConfig (Config.usual 1) = .ok fresh ∧
    (start fresh 2).Runs (overtakingTurns (.error (.searchCancelled 1)) familyPorts) o ∧
      o.calls[1]? = some (.searching flag) ∧ ¬o.Tells := by
  obtain ⟨fresh, hfresh, hfree⟩ : ∃ fresh, Assembler.ofConfig (Config.usual 1) = .ok fresh ∧
    fresh.slot? = none := ⟨_, rfl, rfl⟩
  obtain ⟨o, flag, hruns, hcall, hmining⟩ :=
    runs_overtakingTurns hfree (.error (.searchCancelled 1)) familyPorts
  refine ⟨fresh, o, flag, hfresh, hruns, hcall, fun htells => ?_⟩
  rw [htells.1] at hmining
  nomatch hmining

/-- There the second search has marked itself, and the record of the first comes after. -/
theorem search_told_overtaken : ∃ fresh o flag, Assembler.ofConfig (Config.usual 1) = .ok fresh ∧
    (start fresh 2).Runs (overtakingTurns (.error (.searchCancelled 1)) familyPorts) o ∧
      o.calls[1]? = some (.searching flag) ∧ o.Exclusive ∧ ∃ before after,
        overtakingTurns (.error (.searchCancelled 1)) familyPorts =
          before ++ .call 1 .mark :: after ∧ (o.Tells ↔ ∀ t ∈ after, ¬t.Records) := by
  obtain ⟨fresh, hfresh, hfree⟩ : ∃ fresh, Assembler.ofConfig (Config.usual 1) = .ok fresh ∧
    fresh.slot? = none := ⟨_, rfl, rfl⟩
  obtain ⟨o, flag, hruns, hcall, -⟩ :=
    runs_overtakingTurns hfree (.error (.searchCancelled 1)) familyPorts
  obtain ⟨hexclusive, htold⟩ := search_told hruns
  exact ⟨fresh, o, flag, hfresh, hruns, hcall, hexclusive, htold 1 flag hcall⟩

end Overlap

end BlockProduction

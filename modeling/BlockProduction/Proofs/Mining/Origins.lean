import BlockProduction.Proofs.Mining.Agreement

/-!
# Flags and their origins

Flags are made, linked, cloned, raised and reset in any order.  A linked flag
shows its own cell and that of the flag it comes from, but no cell further up,
so it follows a flag that was raised itself and misses one that only shows the
flag that it comes from in turn.
-/

namespace BlockProduction

/-! ## Tables of flags -/

/-- What is done with the flags of a table, which go by number. -/
inductive FlagOp where
  | fresh
  | linked (i : Nat)
  | clone (i : Nat)
  | raise (i : Nat)
  | reset (i : Nat)
  deriving DecidableEq

/-- All flags that have been made so far, and their cells. -/
structure FlagTable where
  flags : List CancelFlag
  store : FlagStore
  deriving DecidableEq

namespace FlagTable

def empty : FlagTable :=
  ⟨[], .empty⟩

def keep (t : FlagTable) (made : CancelFlag × FlagStore) : FlagTable :=
  ⟨t.flags ++ [made.1], made.2⟩

/-- An operation on a flag that there is not does nothing. -/
def step (t : FlagTable) : FlagOp → FlagTable
  | .fresh => t.keep t.store.fresh
  | .linked i => t.flags[i]?.elim t fun flag => t.keep (t.store.linked flag)
  | .clone i => t.flags[i]?.elim t fun flag => t.keep (flag, t.store)
  | .raise i => t.flags[i]?.elim t fun flag => { t with store := t.store.raise flag }
  | .reset i => t.flags[i]?.elim t fun flag => { t with store := t.store.reset flag }

def run (ops : List FlagOp) : FlagTable :=
  ops.foldl step empty

variable {t : FlagTable} {f g : CancelFlag} {i : Nat}

/-- The cells that a flag shows are cells of the store. -/
structure Stored (store : FlagStore) (f : CancelFlag) : Prop where
  own_lt : f.own < store.cells.length
  origin_lt : ∀ i, f.origin? = some i → i < store.cells.length

theorem Stored.mono {store more : FlagStore} (h : Stored store f)
    (hle : store.cells.length ≤ more.cells.length) : Stored more f where
  own_lt := Nat.lt_of_lt_of_le h.own_lt hle
  origin_lt i hi := Nat.lt_of_lt_of_le (h.origin_lt i hi) hle

def Sound (t : FlagTable) : Prop :=
  ∀ f ∈ t.flags, Stored t.store f

/-- A flag that an operation can make, and the store with it. -/
inductive Makes (t : FlagTable) : CancelFlag × FlagStore → Prop
  | fresh : Makes t t.store.fresh
  | linked {f : CancelFlag} (hf : f ∈ t.flags) : Makes t (t.store.linked f)
  | clone {f : CancelFlag} (hf : f ∈ t.flags) : Makes t (f, t.store)

/-- An operation makes one more flag, or sets cells. -/
theorem step_cases (t : FlagTable) (op : FlagOp) :
    (∃ made, t.Makes made ∧ t.step op = t.keep made) ∨
      ∃ cells, cells.length = t.store.cells.length ∧ t.step op = { t with store := ⟨cells⟩ } := by
  cases op with
  | fresh => exact .inl ⟨_, .fresh, rfl⟩
  | linked i =>
      rw [step]
      cases hflag : t.flags[i]? with
      | none => exact .inr ⟨_, rfl, rfl⟩
      | some flag => exact .inl ⟨_, .linked (List.mem_of_getElem? hflag), rfl⟩
  | clone i =>
      rw [step]
      cases hflag : t.flags[i]? with
      | none => exact .inr ⟨_, rfl, rfl⟩
      | some flag => exact .inl ⟨_, .clone (List.mem_of_getElem? hflag), rfl⟩
  | raise i =>
      rw [step]
      cases t.flags[i]? with
      | none => exact .inr ⟨_, rfl, rfl⟩
      | some flag => exact .inr ⟨_, List.length_set, rfl⟩
  | reset i =>
      rw [step]
      cases t.flags[i]? with
      | none => exact .inr ⟨_, rfl, rfl⟩
      | some flag => exact .inr ⟨_, List.length_set, rfl⟩

theorem Makes.length_le {made : CancelFlag × FlagStore} (h : t.Makes made) :
    t.store.cells.length ≤ made.2.cells.length := by
  cases h with
  | fresh => simp [FlagStore.fresh]
  | linked hf => simp [FlagStore.linked]
  | clone hf => exact Nat.le_refl _

theorem Makes.stored {made : CancelFlag × FlagStore} (h : t.Makes made) (ht : t.Sound) :
    Stored made.2 made.1 := by
  cases h with
  | fresh => exact ⟨by simp [FlagStore.fresh], nofun⟩
  | @linked f hf =>
      have hown := (ht f hf).own_lt
      refine ⟨by simp [FlagStore.linked], ?_⟩
      intro i hi
      cases hi
      simp only [FlagStore.linked, List.length_append, List.length_singleton]
      omega
  | clone hf => exact ht _ hf

theorem Sound.step (h : t.Sound) (op : FlagOp) : (t.step op).Sound := by
  intro f hf
  cases t.step_cases op with
  | inl hmade =>
      obtain ⟨made, hmakes, hstep⟩ := hmade
      rw [hstep] at hf ⊢
      cases List.mem_append.mp hf with
      | inl hold => exact (h f hold).mono hmakes.length_le
      | inr hnew =>
          rw [List.mem_singleton.mp hnew]
          exact hmakes.stored h
  | inr hset =>
      obtain ⟨cells, hlength, hstep⟩ := hset
      rw [hstep] at hf ⊢
      exact (h f hf).mono (Nat.le_of_eq hlength.symm)

theorem Sound.foldl (h : t.Sound) (ops : List FlagOp) : (ops.foldl FlagTable.step t).Sound := by
  induction ops generalizing t with
  | nil => exact h
  | cons op ops ih => exact ih (h.step op)

theorem sound_run (ops : List FlagOp) : (run ops).Sound :=
  Sound.foldl (fun _ hf => absurd hf List.not_mem_nil) ops

/-! ### Numbers stay -/

theorem getElem?_step (h : t.flags[i]? = some f) (op : FlagOp) :
    (t.step op).flags[i]? = some f := by
  cases t.step_cases op with
  | inl hmade =>
      obtain ⟨made, -, hstep⟩ := hmade
      have hlt : i < t.flags.length := (List.getElem?_eq_some_iff.mp h).1
      rw [hstep]
      exact (List.getElem?_append_left hlt).trans h
  | inr hset =>
      obtain ⟨cells, -, hstep⟩ := hset
      rw [hstep]
      exact h

theorem getElem?_foldl (h : t.flags[i]? = some f) (ops : List FlagOp) :
    (ops.foldl step t).flags[i]? = some f := by
  induction ops generalizing t with
  | nil => exact h
  | cons op ops ih => exact ih (getElem?_step h op)

/-- A flag that has just been linked gets the next number, and a cell that was not there. -/
theorem getElem?_step_linked (h : t.flags[i]? = some f) :
    (t.step (.linked i)).flags[t.flags.length]? = some ⟨t.store.cells.length, some f.own⟩ := by
  rw [step, h]
  exact List.getElem?_concat_length

/-! ### Raising and resetting -/

/-- Neither raising nor resetting a flag shows in another whose cells it does not touch. -/
theorem isRaised_step (hg : t.flags[i]? = some g) (hown : g.own ≠ f.own)
    (horigin : f.origin? ≠ some g.own) {op : FlagOp} (hop : op = .raise i ∨ op = .reset i) :
    (t.step op).store.isRaised f = t.store.isRaised f := by
  cases hop with
  | inl hraise =>
      rw [hraise, step, hg]
      exact FlagStore.isRaised_set hown horigin _ _
  | inr hreset =>
      rw [hreset, step, hg]
      exact FlagStore.isRaised_set hown horigin _ _

end FlagTable

/-! ## Searches with a raised flag -/

namespace FlagStore

/-- A raised cell stays so unless it is lowered itself. -/
theorem cell_set {store : FlagStore} {own i : Nat} {raised : Bool} (h : store.cell own = true)
    (hi : i = own → raised = true) : cell ⟨store.cells.set i raised⟩ own = true := by
  unfold cell at h ⊢
  rw [List.getD_eq_getElem?_getD] at h ⊢
  by_cases heq : i = own
  · rw [heq, hi heq]
    cases hcell : store.cells[own]? with
    | none => simp [hcell] at h
    | some old => simp [(List.getElem?_eq_some_iff.mp hcell).1]
  · rwa [List.getElem?_set_ne heq]

theorem isRaised_of_origin {store : FlagStore} {flag : CancelFlag} {own : Nat}
    (horigin : flag.origin? = some own) (h : store.cell own = true) :
    store.isRaised flag = true := by
  rw [isRaised, horigin, Option.any_some, h, Bool.or_true]

end FlagStore

namespace Search

variable {caller shared : CancelFlag} {flags : FlagStore} {s : Search}
  {work : Work (Except Error Mined)} {workers : List (Work (Except Error Mined))}

/-- Nobody lowers the own cell of a flag. -/
def Turn.Keeps (flag : CancelFlag) : Turn → Prop
  | .reset other => other.own ≠ flag.own
  | _ => True

/-- A worker is about to hand a nonce to the solver. -/
def Hands (work : Work (Except Error Mined)) : Prop :=
  ∃ nonce next, work = .note (.handed nonce) next

/-- A worker has yet to look at the flag, and is cancelled if that is raised, or has been
cancelled before its first nonce. -/
inductive Untried : Work (Except Error Mined) → Prop
  | waiting {next : Bool → Work (Except Error Mined)}
      (h : next true = .done (.error (.searchCancelled 0))) : Untried (.poll next)
  | cancelled : Untried (.done (.error (.searchCancelled 0)))

theorem untried_worker (job : MiningJob) {part : NonceRange} (hpart : part.isEmpty = false) :
    Untried (job.worker part) := by
  rw [MiningJob.worker, MiningJob.run, hpart, if_neg Bool.false_ne_true, MiningJob.mineFrom_eq]
  exact .waiting rfl

theorem Untried.not_hands (h : Untried work) : ¬Hands work := by
  rintro ⟨nonce, next, hnote⟩
  rw [hnote] at h
  nomatch h

theorem Untried.step (h : Untried work) (hflag : flags.isRaised shared = true) :
    work.step shared flags = (flags, .done (.error (.searchCancelled 0))) := by
  cases h with
  | waiting hcancelled => rw [Work.step, hflag, hcancelled]
  | cancelled => rfl

theorem Untried.eq_done (h : Untried work) (hover : work.isOver = true) :
    work = .done (.error (.searchCancelled 0)) := by
  cases h with
  | waiting hcancelled => nomatch hover
  | cancelled => rfl

theorem stepAll_of_untried (hflag : flags.isRaised shared = true)
    (h : ∀ work ∈ workers, Untried work) : stepAll shared flags workers =
      (flags, workers.map fun _ => .done (.error (.searchCancelled 0))) := by
  induction workers with
  | nil => rfl
  | cons first rest ih =>
      have hrest := ih fun work hwork => h work (List.mem_cons_of_mem first hwork)
      rw [stepAll_cons, (h first List.mem_cons_self).step hflag, hrest]
      rfl

theorem merge_cancelled {count : Nat} (hcount : 0 < count) :
    merge (List.replicate count (.error (.searchCancelled 0))) = .error (.searchCancelled 0) := by
  have htotal : ∀ n, total (List.replicate n 0) = 0 := by
    intro n
    induction n with
    | zero => rfl
    | succ n ih => rw [List.replicate_succ, total_cons, ih]
  rw [merge, List.findSome?_replicate_of_pos hcount, List.findSome?_replicate_of_pos hcount]
  simp [solution?, failure?, noncesOf, isExhausted, htotal, Nat.ne_of_gt hcount]

/-- The flag of the caller is raised, and no worker has tried a nonce. -/
structure Stopped (caller : CancelFlag) (s : Search) : Prop where
  origin : s.shared.origin? = some caller.own
  raised : s.flags.cell caller.own = true
  nonempty : s.workers ≠ []
  untried : ∀ work ∈ s.workers, Untried work

namespace Stopped

theorem shows (h : s.Stopped caller) : s.flags.isRaised s.shared = true :=
  FlagStore.isRaised_of_origin h.origin h.raised

theorem turn (h : s.Stopped caller) {t : Turn} (ht : t.Keeps caller) :
    (s.turn t).Stopped caller := by
  cases t with
  | worker i =>
      rw [Search.turn, Search.step]
      cases hwork : s.workers[i]? with
      | none => exact h
      | some work =>
          dsimp only
          rw [(h.untried work (List.mem_of_getElem? hwork)).step h.shows]
          refine ⟨h.origin, h.raised, ?_, ?_⟩
          · show s.workers.set i _ ≠ []
            rw [Ne, List.set_eq_nil_iff]
            exact h.nonempty
          · intro other hother
            rcases List.mem_or_eq_of_mem_set hother with hold | hnew
            · exact h.untried other hold
            · rw [hnew]
              exact .cancelled
  | raise flag => exact { h with raised := FlagStore.cell_set h.raised fun _ => rfl }
  | reset flag => exact { h with raised := FlagStore.cell_set h.raised fun heq => absurd heq ht }

theorem turns (h : s.Stopped caller) {ts : List Turn} (hts : ∀ t ∈ ts, t.Keeps caller) :
    (ts.foldl Search.turn s).Stopped caller := by
  induction ts generalizing s with
  | nil => exact h
  | cons t ts ih =>
      exact ih (h.turn (hts t List.mem_cons_self)) fun later hlater =>
        hts later (List.mem_cons_of_mem t hlater)

theorem finish (h : s.Stopped caller) : s.finish.Stopped caller := by
  fun_induction Search.finish s with
  | case1 s hrunning ih =>
      apply ih
      rw [sweep, stepAll_of_untried h.shows h.untried]
      refine ⟨h.origin, h.raised, ?_, ?_⟩
      · show s.workers.map _ ≠ []
        rw [Ne, List.map_eq_nil_iff]
        exact h.nonempty
      · intro work hwork
        obtain ⟨_, -, rfl⟩ := List.mem_map.mp hwork
        exact .cancelled
  | case2 s hover => exact h

theorem outcome (h : s.Stopped caller) (hover : s.isRunning = false) :
    s.outcome = .error (.searchCancelled 0) := by
  have hdone : ∀ work ∈ s.workers, work = .done (.error (.searchCancelled 0)) := by
    intro work hwork
    apply (h.untried work hwork).eq_done
    unfold isRunning at hover
    simpa using List.any_eq_false.mp hover work hwork
  have hpos : 0 < s.workers.length := List.length_pos_of_ne_nil h.nonempty
  rw [Search.outcome, results, List.eq_replicate_of_mem hdone,
    List.filterMap_replicate_of_isSome rfl]
  exact merge_cancelled hpos

end Stopped

theorem stopped_start (job : MiningJob) (workers : Nat) {range : NonceRange}
    (hrange : range.isEmpty = false) (hcaller : flags.cell caller.own = true) :
    (start job workers range caller flags).Stopped caller where
  origin := rfl
  raised := by
    show FlagStore.cell ⟨flags.cells ++ [false]⟩ caller.own = true
    rw [FlagStore.cell_append]
    exact hcaller
  nonempty := by
    obtain ⟨part, hpart, -⟩ := (NonceRange.exists_part_of_split_iff range workers _).mpr
      ⟨Nat.le_refl _, NonceRange.ordered_of_not_isEmpty hrange⟩
    exact List.ne_nil_of_mem (List.mem_map_of_mem hpart)
  untried := by
    intro work hwork
    obtain ⟨part, hpart, rfl⟩ := List.mem_map.mp hwork
    exact untried_worker job (NonceRange.not_isEmpty_of_mem_split hpart)

/-- However a search with a flag goes, its workers hand no nonce to the solver, and it ends
cancelled with nothing tried, unless it has nothing to search or somebody lowers the flag. -/
def TriesNothing (caller : CancelFlag) (flags : FlagStore) : Prop :=
  ∀ (job : MiningJob) (workers : Nat) (range : NonceRange) (turns : List Turn),
    range.isEmpty = false → (∀ t ∈ turns, t.Keeps caller) →
    (∀ work ∈ (turns.foldl turn (start job workers range caller flags)).workers, ¬Hands work) ∧
    (job.mine workers range caller turns flags).1 = .error (.searchCancelled 0)

theorem triesNothing_of_cell (hcaller : flags.cell caller.own = true) :
    TriesNothing caller flags := by
  intro job workers range turns hrange hturns
  have hafter := (stopped_start job workers hrange hcaller).turns hturns
  constructor
  · intro work hwork
    exact (hafter.untried work hwork).not_hands
  · exact hafter.finish.outcome (isRunning_finish _)

end Search

/-! ## Following the origin -/

namespace FlagTable

/-- Whatever is done with the flags of a table, before and after one of them is linked: raising
and resetting the new flag or a clone of it never shows in its origin, and the new flag shows its
own cell and that of the origin.  So as long as the origin is no linked flag, or its own cell is
raised, the new flag is raised whenever the origin is, and a search with the origin then tries
nothing. -/
theorem linked_follows (before after : List FlagOp) {i : Nat} {f : CancelFlag}
    (hf : (run before).flags[i]? = some f) :
    let t := run (before ++ .linked i :: after)
    ∃ g, t.flags[(run before).flags.length]? = some g ∧
      (∀ j, t.flags[j]? = some g → ∀ op, op = .raise j ∨ op = .reset j →
        (t.step op).store.isRaised f = t.store.isRaised f) ∧
      t.store.isRaised g = (t.store.cell g.own || t.store.cell f.own) ∧
      (f.origin? = none ∨ t.store.cell f.own = true → t.store.isRaised f = true →
        t.store.isRaised g = true ∧ Search.TriesNothing f t.store) := by
  intro t
  have hstored := sound_run before f (List.mem_of_getElem? hf)
  have ht : t = after.foldl step ((run before).step (.linked i)) := by
    show run (before ++ .linked i :: after) = _
    rw [run, List.foldl_append, List.foldl_cons]
    rfl
  refine ⟨⟨(run before).store.cells.length, some f.own⟩, ?_, ?_, rfl, ?_⟩
  · rw [ht]
    exact getElem?_foldl (getElem?_step_linked hf) after
  · intro j hj op hop
    have hown := hstored.own_lt
    have horigin : f.origin? ≠ some (run before).store.cells.length := fun heq =>
      Nat.lt_irrefl _ (hstored.origin_lt _ heq)
    exact isRaised_step hj (by dsimp only; omega) horigin hop
  · intro hdirect hraised
    have hcell : t.store.cell f.own = true := by
      cases hdirect with
      | inl hnone => simpa [FlagStore.isRaised, hnone] using hraised
      | inr hcell => exact hcell
    exact ⟨FlagStore.isRaised_of_origin rfl hcell, Search.triesNothing_of_cell hcell⟩

/-- A new flag, and a flag that is linked from it and seen raised with it. -/
theorem linked_follows_fresh :
    let t := run [.fresh, .linked 0, .raise 0]
    (run [.fresh]).flags[0]? = some ⟨0, none⟩ ∧ t.flags[1]? = some ⟨1, some 0⟩ ∧
      t.store.isRaised ⟨0, none⟩ = true ∧ t.store.isRaised ⟨1, some 0⟩ = true ∧
      Search.TriesNothing ⟨0, none⟩ t.store := by
  intro t
  obtain ⟨g, hg, -, -, hfollows⟩ := linked_follows [.fresh] [.raise 0] (i := 0) (f := ⟨0, none⟩) rfl
  have hlinked : some ⟨1, some 0⟩ = some g := hg
  cases hlinked
  exact ⟨rfl, rfl, rfl, hfollows (.inl rfl) rfl⟩

/-- A flag that is linked from a linked flag misses what that one shows of its origin, and a search
with a flag that only shows its origin goes through its range. -/
theorem linked_twice_misses :
    let t := run [.fresh, .linked 0, .linked 1, .raise 0]
    t.flags[1]? = some ⟨1, some 0⟩ ∧ t.flags[2]? = some ⟨2, some 1⟩ ∧
      t.store.isRaised ⟨1, some 0⟩ = true ∧ t.store.isRaised ⟨2, some 1⟩ = false ∧
      (refusedJob.mine 2 ⟨6, 8⟩ ⟨1, some 0⟩ [] t.store).1 =
        .error (.noncesExhausted 3) := by
  intro t
  have hlinked : (t.store.linked ⟨1, some 0⟩).2.isRaised (t.store.linked ⟨1, some 0⟩).1 = false :=
    FlagStore.isRaised_linked_of_cell rfl
  have hoffers : refusedJob.Offers fun _ => [[1]] := fun calls nonce => Script.offers_attempt [[1]]
  have hturns : ∀ turn ∈ [], Search.Turn.Spares (t.store.linked ⟨1, some 0⟩).1 turn := nofun
  have hdecided := MiningJob.decided_mine_of_linked hoffers 2 ⟨6, 8⟩ hlinked hturns
  refine ⟨rfl, rfl, rfl, rfl, hdecided.eq_exhausted ?_⟩
  -- the one candidate is refused for every nonce
  intro hsolvable
  obtain ⟨nonce, -, solution, hsolution, hverify, -⟩ := hsolvable
  cases List.mem_singleton.mp hsolution
  nomatch hverify

end FlagTable

end BlockProduction

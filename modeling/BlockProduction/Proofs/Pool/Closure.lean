import BlockProduction.Pool.Snapshot
import BlockProduction.Proofs.Block.Validity

/-!
# Closing a snapshot

A snapshot is refused if two candidates have one hash or if a chain of spends
leads back to where it starts.  In any other case it shows each candidate with
everything that it depends on, and with everything that depends on it, over
chains of spends of any length.

The search closes a candidate when its parents are closed.  The rows that it has
made tell the order in which it went: the parents of each candidate stand before
it, so that the rows list what chains of spends lead to, and no chain leads from
a candidate with a row back to itself.  It fails only where it meets a candidate
again on the path to that candidate.
-/

namespace BlockProduction

open Relation

/-- Hashes in their order, each once. -/
def Hash256.Increasing (hashes : List Hash256) : Prop :=
  hashes.Pairwise fun a b => a.value.toNat < b.value.toNat

theorem Hash256.Increasing.nodup {hashes : List Hash256} (h : Increasing hashes) :
    hashes.Nodup := by
  refine h.imp ?_
  intro a b hlt heq
  rw [heq] at hlt
  omega

namespace Snapshot

/-- One candidate spends an output of another one. -/
def Spends (txs : List Candidate) (d a : Hash256) : Prop :=
  a ≠ d ∧ a ∈ txs.map (·.hash) ∧
    ∃ tx ∈ txs, tx.hash = d ∧ ∃ input ∈ tx.inputs, input.prevout.hash = a

/-- A chain of one or more spends leads from one candidate to another. -/
def DependsOn (txs : List Candidate) : Hash256 → Hash256 → Prop :=
  TransGen (Spends txs)

/-! ## Rows -/

/-- The candidates that have a row. -/
def closedHashes (closed : Closed) : List Hash256 :=
  closed.map (·.1)

theorem exists_lookup {closed : Closed} {h : Hash256} (hh : h ∈ closedHashes closed) :
    ∃ row, closed.lookup h = some row ∧ (h, row) ∈ closed := by
  obtain ⟨entry, hentry, rfl⟩ := List.mem_map.mp hh
  have hsome : (closed.lookup entry.1).isSome = true :=
    List.lookup_isSome_iff.mpr ⟨entry, hentry, beq_self_eq_true _⟩
  obtain ⟨row, hrow⟩ := Option.isSome_iff_exists.mp hsome
  obtain ⟨before, after, hsplit, -⟩ := List.lookup_eq_some_iff.mp hrow
  refine ⟨row, hrow, ?_⟩
  rw [hsplit]
  simp

theorem isSome_lookup_iff {closed : Closed} {h : Hash256} :
    (closed.lookup h).isSome = true ↔ h ∈ closedHashes closed := by
  constructor
  · intro hsome
    obtain ⟨entry, hentry, heq⟩ := List.lookup_isSome_iff.mp hsome
    rw [eq_of_beq heq]
    exact List.mem_map_of_mem hentry
  · intro hh
    obtain ⟨row, hrow, -⟩ := exists_lookup hh
    rw [hrow]
    rfl

/-- A table with a row for each of a list of hashes. -/
theorem lookup_map_eq {hashes : List Hash256} (f : Hash256 → List Hash256) (h : Hash256) :
    (hashes.map fun x => (x, f x)).lookup h = if h ∈ hashes then some (f h) else none := by
  by_cases hh : h ∈ hashes
  · rw [if_pos hh, List.lookup_graph f hh]
  · rw [if_neg hh, List.lookup_eq_none_iff]
    intro entry hentry
    obtain ⟨x, hx, rfl⟩ := List.mem_map.mp hentry
    rw [bne_iff_ne]
    rintro rfl
    exact hh hx

section Search

variable {parentsOf : Hash256 → List Hash256} {hashes : List Hash256}

/-- The parents of a candidate, each with its row. -/
def aboveOf (parentsOf : Hash256 → List Hash256) (closed : Closed) (h : Hash256) : List Hash256 :=
  (parentsOf h).flatMap fun p => p :: (closed.lookup p).getD []

/-- The row of a candidate whose parents have theirs, in the order of the hashes. -/
def rowOf (parentsOf : Hash256 → List Hash256) (hashes : List Hash256) (closed : Closed)
    (h : Hash256) : List Hash256 :=
  if (aboveOf parentsOf closed h).isEmpty then []
  else hashes.filter (aboveOf parentsOf closed h).contains

/-- Rows that were made one after the other, the latest first: parents come before. -/
inductive Ordered (parentsOf : Hash256 → List Hash256) (hashes : List Hash256) : Closed → Prop
  | nil : Ordered parentsOf hashes []
  | cons {closed : Closed} {h : Hash256} (hordered : Ordered parentsOf hashes closed)
      (hnew : h ∉ closedHashes closed) (hparents : ∀ p ∈ parentsOf h, p ∈ closedHashes closed) :
      Ordered parentsOf hashes ((h, rowOf parentsOf hashes closed h) :: closed)

theorem rowOf_eq_filter (closed : Closed) (h : Hash256) :
    rowOf parentsOf hashes closed h = hashes.filter fun a => a ∈ aboveOf parentsOf closed h := by
  unfold rowOf
  split
  · rename_i hempty
    simp [List.isEmpty_iff.mp hempty]
  · refine List.filter_congr fun a _ => ?_
    rw [List.contains_eq_mem]

theorem mem_rowOf {closed : Closed} {h a : Hash256} :
    a ∈ rowOf parentsOf hashes closed h ↔
      a ∈ hashes ∧ ∃ p ∈ parentsOf h, a = p ∨ a ∈ (closed.lookup p).getD [] := by
  rw [rowOf_eq_filter, List.mem_filter, decide_eq_true_eq, aboveOf, List.mem_flatMap]
  simp only [List.mem_cons]

/-- A candidate is a parent of another. -/
abbrev Child (parentsOf : Hash256 → List Hash256) (d p : Hash256) : Prop :=
  p ∈ parentsOf d

namespace Ordered

variable {closed : Closed} (h : Ordered parentsOf hashes closed)
include h

theorem parents_closed {x : Hash256} (hx : x ∈ closedHashes closed) :
    ∀ p ∈ parentsOf x, p ∈ closedHashes closed := by
  induction h with
  | nil => contradiction
  | cons hordered hnew hparents ih =>
      intro p hp
      apply List.mem_cons_of_mem
      rcases List.mem_cons.mp hx with rfl | hx
      · exact hparents p hp
      · exact ih hx p hp

theorem above_closed {x a : Hash256} (hx : x ∈ closedHashes closed)
    (ha : ReflTransGen (Child parentsOf) x a) : a ∈ closedHashes closed := by
  induction ha with
  | refl => exact hx
  | tail _ hstep ih => exact h.parents_closed ih _ hstep

/-- A chain that came back to the latest candidate would have closed it before its parents. -/
theorem acyclic {x : Hash256} (hx : x ∈ closedHashes closed) : ¬TransGen (Child parentsOf) x x := by
  induction h with
  | nil => contradiction
  | @cons closed latest hordered hnew hparents ih =>
      by_cases hlatest : x = latest
      · subst hlatest
        intro hcycle
        obtain ⟨p, hp, hback⟩ := TransGen.head'_iff.mp hcycle
        exact hnew (hordered.above_closed (hparents p hp) hback)
      · exact ih (List.mem_of_ne_of_mem hlatest hx)

/-- Rows list what chains of parents lead to. -/
theorem mem_row_iff (hknown : ∀ d, ∀ p ∈ parentsOf d, p ∈ hashes) {x : Hash256}
    {row : List Hash256} (hrow : (x, row) ∈ closed) (a : Hash256) :
    a ∈ row ↔ TransGen (Child parentsOf) x a := by
  induction h generalizing x row a with
  | nil => contradiction
  | @cons closed latest hordered hnew hparents ih =>
      rcases List.mem_cons.mp hrow with heq | hold
      · obtain ⟨rfl, rfl⟩ := Prod.mk.inj heq
        have hparent : ∀ p ∈ parentsOf x,
            (a = p ∨ a ∈ (closed.lookup p).getD [] ↔ ReflTransGen (Child parentsOf) p a) := by
          intro p hp
          obtain ⟨row, hlookup, hrow⟩ := exists_lookup (hparents p hp)
          rw [hlookup, Option.getD_some, ih hrow, reflTransGen_iff_eq_or_transGen]
        rw [mem_rowOf, TransGen.head'_iff]
        constructor
        · rintro ⟨-, p, hp, ha⟩
          exact ⟨p, hp, (hparent p hp).mp ha⟩
        · rintro ⟨p, hp, ha⟩
          refine ⟨?_, p, hp, (hparent p hp).mpr ha⟩
          rcases ReflTransGen.cases_tail ha with rfl | ⟨d, -, hlast⟩
          · exact hknown x a hp
          · exact hknown d a hlast
      · exact ih hold a

theorem row_sublist {x : Hash256} {row : List Hash256} (hrow : (x, row) ∈ closed) :
    row.Sublist hashes := by
  induction h with
  | nil => contradiction
  | cons hordered hnew hparents ih =>
      rcases List.mem_cons.mp hrow with heq | hold
      · obtain ⟨-, rfl⟩ := Prod.mk.inj heq
        rw [rowOf_eq_filter]
        exact List.filter_sublist
      · exact ih hold

end Ordered

/-! ## The search -/

/-- How the search for some candidates ends: on a cycle, or with rows for all of them. -/
inductive Closes (parentsOf : Hash256 → List Hash256) (hashes path : List Hash256)
    (closed : Closed) (wanted : List Hash256) : Except Hash256 Closed → Prop
  | cycle {c : Hash256} (hcycle : TransGen (Child parentsOf) c c) :
      Closes parentsOf hashes path closed wanted (.error c)
  | rows {next : Closed} (hordered : Ordered parentsOf hashes next)
      (hkeeps : closedHashes closed ⊆ closedHashes next)
      (hfree : ∀ x ∈ path, x ∉ closedHashes next) (hwanted : wanted ⊆ closedHashes next) :
      Closes parentsOf hashes path closed wanted (.ok next)

/-- One candidate after the other. -/
theorem Closes.foldlM {path wanted : List Hash256} {step : Closed → Hash256 → Except Hash256 Closed}
    (hstep : ∀ h ∈ wanted, ∀ closed, Ordered parentsOf hashes closed →
      (∀ x ∈ path, x ∉ closedHashes closed) →
      Closes parentsOf hashes path closed [h] (step closed h))
    {closed : Closed} (hordered : Ordered parentsOf hashes closed)
    (hfree : ∀ x ∈ path, x ∉ closedHashes closed) :
    Closes parentsOf hashes path closed wanted (wanted.foldlM step closed) := by
  induction wanted generalizing closed with
  | nil => exact .rows hordered (List.Subset.refl _) hfree (List.nil_subset _)
  | cons h wanted ih =>
      have hfirst := hstep h (by simp) closed hordered hfree
      rw [List.foldlM_cons]
      cases hresult : step closed h with
      | error c =>
          rw [hresult] at hfirst
          cases hfirst with
          | cycle hcycle => exact .cycle hcycle
      | ok middle =>
          rw [hresult] at hfirst
          cases hfirst with
          | rows hordered hkeeps hfree hfound =>
              have hrest := ih (fun x hx => hstep x (by simp [hx])) hordered hfree
              show Closes parentsOf hashes path closed (h :: wanted) (wanted.foldlM step middle)
              generalize wanted.foldlM step middle = result at hrest ⊢
              cases hrest with
              | cycle hcycle => exact .cycle hcycle
              | rows hordered' hkeeps' hfree' hwanted =>
                  refine .rows hordered' (List.Subset.trans hkeeps hkeeps') hfree' ?_
                  exact List.cons_subset.mpr ⟨hkeeps' (hfound (by simp)), hwanted⟩

/-- With rows for its parents a candidate gets its own. -/
theorem Closes.add {path : List Hash256} {closed : Closed} {h : Hash256}
    {result : Except Hash256 Closed} (hmet : h ∉ path)
    (hparents : Closes parentsOf hashes (h :: path) closed (parentsOf h) result) :
    Closes parentsOf hashes path closed [h]
      (result.map fun next => (h, rowOf parentsOf hashes next h) :: next) := by
  cases hparents with
  | cycle hcycle => exact .cycle hcycle
  | rows hordered hkeeps hfree hwanted =>
      refine .rows (.cons hordered (hfree h (by simp)) hwanted) ?_ ?_ ?_
      · exact List.Subset.trans hkeeps (List.subset_cons_self _ _)
      · intro x hx hmem
        rcases List.mem_cons.mp hmem with rfl | hmem
        · exact hmet hx
        · exact hfree x (by simp [hx]) hmem
      · simp [closedHashes]

/-- A candidate that has no row and is not on the path gets its row after its parents. -/
theorem close_succ (fuel : Nat) {path : List Hash256} {closed : Closed} {h : Hash256}
    (hrow : h ∉ closedHashes closed) (hmet : h ∉ path) :
    close parentsOf hashes (fuel + 1) path closed h =
      ((parentsOf h).foldlM (close parentsOf hashes fuel (h :: path)) closed).map fun next =>
        (h, rowOf parentsOf hashes next h) :: next := by
  have hclosed : ¬(closed.lookup h).isSome = true := fun hsome => hrow (isSome_lookup_iff.mp hsome)
  have hpath : ¬path.contains h = true := fun hmem => hmet (List.contains_iff_mem.mp hmem)
  rw [close, if_neg hclosed, if_neg hpath]
  rfl

/-- The path holds candidates that depend on the one that is looked for, each once, so that it
cannot become longer than the list of all hashes. -/
theorem closes_close (hknown : ∀ d, ∀ p ∈ parentsOf d, p ∈ hashes) {fuel : Nat}
    {path : List Hash256} {closed : Closed} {h : Hash256} (hh : h ∈ hashes)
    (hpath : path.Nodup) (hin : path ⊆ hashes)
    (hbelow : ∀ x ∈ path, TransGen (Child parentsOf) x h)
    (hfuel : hashes.length < fuel + path.length) (hordered : Ordered parentsOf hashes closed)
    (hfree : ∀ x ∈ path, x ∉ closedHashes closed) :
    Closes parentsOf hashes path closed [h] (close parentsOf hashes fuel path closed h) := by
  induction fuel generalizing path closed h with
  | zero =>
      have hle : path.length ≤ hashes.length := (List.subperm_of_subset hpath hin).length_le
      omega
  | succ fuel ih =>
      by_cases hrow : h ∈ closedHashes closed
      · rw [close, if_pos (isSome_lookup_iff.mpr hrow)]
        exact .rows hordered (List.Subset.refl _) hfree (by simpa using hrow)
      · by_cases hmet : h ∈ path
        · have hclosed : ¬(closed.lookup h).isSome = true :=
            fun hsome => hrow (isSome_lookup_iff.mp hsome)
          rw [close, if_neg hclosed, if_pos (List.contains_iff_mem.mpr hmet)]
          exact .cycle (hbelow h hmet)
        · have hlonger : hashes.length < fuel + (h :: path).length := by
            rw [List.length_cons]
            omega
          have hparent : ∀ p ∈ parentsOf h, ∀ x ∈ h :: path, TransGen (Child parentsOf) x p := by
            intro p hp x hx
            rcases List.mem_cons.mp hx with rfl | hx
            · exact .single hp
            · exact (hbelow x hx).tail hp
          have hfree' : ∀ x ∈ h :: path, x ∉ closedHashes closed := by
            intro x hx
            rcases List.mem_cons.mp hx with rfl | hx
            · exact hrow
            · exact hfree x hx
          have hparents : Closes parentsOf hashes (h :: path) closed (parentsOf h)
              ((parentsOf h).foldlM (close parentsOf hashes fuel (h :: path)) closed) := by
            refine Closes.foldlM (fun p hp closed hordered hfree => ?_) hordered hfree'
            exact ih (hknown h p hp) (List.nodup_cons.mpr ⟨hmet, hpath⟩)
              (List.cons_subset.mpr ⟨hh, hin⟩) (hparent p hp) hlonger hordered hfree
          rw [close_succ fuel hrow hmet]
          exact hparents.add hmet

end Search

/-! ## Chains of spends -/

variable {txs : List Candidate} {s : Snapshot}

theorem mem_sortedHashes {h : Hash256} : h ∈ sortedHashes txs ↔ h ∈ txs.map (·.hash) :=
  List.mem_mergeSort

theorem sortedHashes_increasing (hdistinct : (txs.map (·.hash)).Nodup) :
    Hash256.Increasing (sortedHashes txs) := by
  have hordered : (sortedHashes txs).Pairwise fun a b => Hash256.le a b = true :=
    List.pairwise_mergeSort Hash256.le_trans Hash256.le_total _
  have hnodup : (sortedHashes txs).Nodup := (List.mergeSort_perm _ _).nodup_iff.mpr hdistinct
  refine (hordered.and hnodup).imp ?_
  intro a b hab
  have hle : a.value.toNat ≤ b.value.toNat := Hash256.le_iff.mp hab.1
  have hne : a.value.toNat ≠ b.value.toNat := fun heq =>
    hab.2 (Hash256.le_antisymm hab.1 (Hash256.le_iff.mpr (Nat.le_of_eq heq.symm)))
  omega

theorem DependsOn.mem_left {d a : Hash256} (h : DependsOn txs d a) : d ∈ txs.map (·.hash) := by
  obtain ⟨b, ⟨-, -, tx, htx, rfl, -⟩, -⟩ := TransGen.head'_iff.mp h
  exact List.mem_map_of_mem htx

theorem DependsOn.mem_right {d a : Hash256} (h : DependsOn txs d a) : a ∈ txs.map (·.hash) := by
  obtain ⟨b, -, hlast⟩ := TransGen.tail'_iff.mp h
  exact hlast.2.1

theorem find?_hash_eq_some (hdistinct : (txs.map (·.hash)).Nodup) {tx : Candidate}
    (htx : tx ∈ txs) : txs.find? (fun other => other.hash = tx.hash) = some tx := by
  cases hfound : txs.find? fun other => other.hash = tx.hash with
  | none =>
      have hnone := List.find?_eq_none.mp hfound tx htx
      simp at hnone
  | some other =>
      have hhash : other.hash = tx.hash := by simpa using List.find?_some hfound
      rw [List.inj_on_of_nodup_map hdistinct (List.mem_of_find?_eq_some hfound) htx hhash]

theorem spendsFrom_iff {tx : Candidate} {h : Hash256} :
    tx.spendsFrom h = true ↔ ∃ input ∈ tx.inputs, input.prevout.hash = h := by
  simp [Candidate.spendsFrom]

theorem mem_parents_iff (hdistinct : (txs.map (·.hash)).Nodup) {d p : Hash256} :
    p ∈ parents txs (sortedHashes txs) d ↔ Spends txs d p := by
  by_cases hd : ∃ tx ∈ txs, tx.hash = d
  · obtain ⟨tx, htx, rfl⟩ := hd
    have hparents : p ∈ parents txs (sortedHashes txs) tx.hash ↔
        p ∈ txs.map (·.hash) ∧ p ≠ tx.hash ∧ tx.spendsFrom p = true := by
      rw [parents, find?_hash_eq_some hdistinct htx]
      by_cases hempty : tx.inputs = []
      · simp [hempty, Candidate.spendsFrom]
      · simp [hempty, mem_sortedHashes]
    rw [hparents, spendsFrom_iff]
    constructor
    · rintro ⟨hp, hne, hspent⟩
      exact ⟨hne, hp, tx, htx, rfl, hspent⟩
    · rintro ⟨hne, hp, other, hother, hhash, hspent⟩
      rw [List.inj_on_of_nodup_map hdistinct hother htx hhash] at hspent
      exact ⟨hp, hne, hspent⟩
  · have hnone : txs.find? (fun tx => tx.hash = d) = none := by
      apply List.find?_eq_none.mpr
      intro tx htx heq
      exact hd ⟨tx, htx, of_decide_eq_true heq⟩
    rw [parents, hnone]
    constructor
    · intro hp
      contradiction
    · rintro ⟨-, -, tx, htx, hhash, -⟩
      exact absurd ⟨tx, htx, hhash⟩ hd

theorem parents_subset (hdistinct : (txs.map (·.hash)).Nodup) (d : Hash256) :
    ∀ p ∈ parents txs (sortedHashes txs) d, p ∈ sortedHashes txs := by
  intro p hp
  exact mem_sortedHashes.mpr ((mem_parents_iff hdistinct).mp hp).2.1

theorem transGen_parents_iff (hdistinct : (txs.map (·.hash)).Nodup) {d a : Hash256} :
    TransGen (Child (parents txs (sortedHashes txs))) d a ↔ DependsOn txs d a := by
  have hsame : Child (parents txs (sortedHashes txs)) = Spends txs := by
    funext d p
    exact propext (mem_parents_iff hdistinct)
  rw [hsame]
  rfl

theorem closes_closeAll (hdistinct : (txs.map (·.hash)).Nodup) :
    Closes (parents txs (sortedHashes txs)) (sortedHashes txs) [] [] (sortedHashes txs)
      (closeAll txs (sortedHashes txs)) := by
  apply Closes.foldlM ?_ .nil (by simp)
  intro h hh closed hordered hfree
  exact closes_close (parents_subset hdistinct) hh .nil (List.nil_subset _) (by simp) (by simp)
    hordered hfree

/-! ## The tables of a snapshot -/

/-- Candidates with the packages that a snapshot gives them. -/
def entries (s : Snapshot) (txs : List Candidate) : List (Candidate × Package) :=
  txs.map fun tx => (tx, fullPackage txs s.ancestors tx)

/-- The tables of a snapshot when its candidates are closed. -/
structure Tabled (s : Snapshot) (txs : List Candidate) (closed : Closed) : Prop where
  ancestors_eq : s.ancestors =
    (sortedHashes txs).map fun h => (h, (closed.lookup h).getD [])
  descendants_eq : s.descendants = (sortedHashes txs).map fun h =>
    (h, (s.ancestors.filter fun row => row.2.contains h).map (·.1))

/-- What a snapshot is made of when its candidates are closed and sorted. -/
structure Built (s : Snapshot) (txs : List Candidate) (closed : Closed) : Prop
    extends s.Tabled txs closed where
  /-- The candidates are sorted if there is an order of them with their packages. -/
  presented : ∃ sorted : List (Candidate × Package),
    s.candidates = sorted.map (·.1) ∧ sorted.Perm (s.entries txs) ∧
    (Orders precedes (s.entries txs) → sorted.Pairwise fun a b => precedes a b = true)

/-- The relations are those that chains of spends make, each hash once and in order. -/
structure Shows (s : Snapshot) (txs : List Candidate) : Prop where
  ancestors : ∀ h ∈ txs.map (·.hash), ∃ related, s.view.ancestors? h = some related ∧
    Hash256.Increasing related ∧ ∀ a, a ∈ related ↔ DependsOn txs h a
  descendants : ∀ h ∈ txs.map (·.hash), ∃ related, s.view.descendants? h = some related ∧
    Hash256.Increasing related ∧ ∀ d, d ∈ related ↔ DependsOn txs d h
  unknown : ∀ h ∉ txs.map (·.hash), s.view.ancestors? h = none ∧ s.view.descendants? h = none

section Tables

variable {closed : Closed} (hdistinct : (txs.map (·.hash)).Nodup)
  (hordered : Ordered (parents txs (sortedHashes txs)) (sortedHashes txs) closed)
  (hall : sortedHashes txs ⊆ closedHashes closed)
include hdistinct hordered hall

/-- The row that the search has made of a candidate. -/
theorem exists_row {h : Hash256} (hh : h ∈ sortedHashes txs) : ∃ row, closed.lookup h = some row ∧
    row.Sublist (sortedHashes txs) ∧ ∀ a, a ∈ row ↔ DependsOn txs h a := by
  obtain ⟨row, hlookup, hrow⟩ := exists_lookup (hall hh)
  refine ⟨row, hlookup, hordered.row_sublist hrow, ?_⟩
  intro a
  rw [hordered.mem_row_iff (parents_subset hdistinct) hrow, transGen_parents_iff hdistinct]

theorem Tabled.shows (htabled : s.Tabled txs closed) : s.Shows txs := by
  have hincreasing := sortedHashes_increasing hdistinct
  have hancestors : ∀ h, s.view.ancestors? h =
      if h ∈ sortedHashes txs then some ((closed.lookup h).getD []) else none := by
    intro h
    show s.ancestors.lookup h = _
    rw [htabled.ancestors_eq, lookup_map_eq]
  have hdescendants : ∀ h, s.view.descendants? h = if h ∈ sortedHashes txs then
      some ((sortedHashes txs).filter fun d => ((closed.lookup d).getD []).contains h)
      else none := by
    intro h
    show s.descendants.lookup h = _
    rw [htabled.descendants_eq, lookup_map_eq, htabled.ancestors_eq, List.filter_map, List.map_map]
    simp only [Function.comp_def, List.map_id']
  refine ⟨?_, ?_, ?_⟩
  · intro h hh
    have hh : h ∈ sortedHashes txs := mem_sortedHashes.mpr hh
    obtain ⟨row, hlookup, hsub, hrow⟩ := exists_row hdistinct hordered hall hh
    refine ⟨row, ?_, hincreasing.sublist hsub, hrow⟩
    rw [hancestors, if_pos hh, hlookup, Option.getD_some]
  · intro h hh
    refine ⟨(sortedHashes txs).filter fun d => ((closed.lookup d).getD []).contains h, ?_,
      hincreasing.sublist List.filter_sublist, ?_⟩
    · rw [hdescendants, if_pos (mem_sortedHashes.mpr hh)]
    · intro d
      rw [List.mem_filter, List.contains_iff_mem]
      constructor
      · rintro ⟨hd, hmem⟩
        obtain ⟨row, hlookup, -, hrow⟩ := exists_row hdistinct hordered hall hd
        rw [hlookup, Option.getD_some] at hmem
        exact (hrow h).mp hmem
      · intro hdepends
        have hd : d ∈ sortedHashes txs := mem_sortedHashes.mpr hdepends.mem_left
        obtain ⟨row, hlookup, -, hrow⟩ := exists_row hdistinct hordered hall hd
        rw [hlookup, Option.getD_some]
        exact ⟨hd, (hrow h).mpr hdepends⟩
  · intro h hh
    have hout : h ∉ sortedHashes txs := fun hin => hh (mem_sortedHashes.mp hin)
    rw [hancestors, hdescendants, if_neg hout, if_neg hout]
    exact ⟨rfl, rfl⟩

end Tables

/-! ## What becomes of a list of candidates -/

theorem repeated?_eq_firstRepeated? (seen : List Hash256) (txs : List Candidate) :
    repeated? seen txs = Template.firstRepeated? seen (txs.map (·.hash)) := by
  induction txs generalizing seen with
  | nil => rfl
  | cons tx txs ih => rw [repeated?, List.map_cons, Template.firstRepeated?, ih]

theorem repeated?_eq_none_iff : repeated? [] txs = none ↔ (txs.map (·.hash)).Nodup := by
  rw [repeated?_eq_firstRepeated?, Template.firstRepeated?_eq_none_iff]
  simp

/-- A list with a hash that stands twice, a list with a cycle, a snapshot, or a list whose entries
are in no order and on which the sort has given up. -/
inductive Settles (txs : List Candidate) : Option (Except Error Snapshot) → Prop
  | repeated {h : Hash256} (hrepeated : ¬(txs.map (·.hash)).Nodup) :
      Settles txs (some (.error (.duplicate h)))
  | cyclic {h : Hash256} (hdistinct : (txs.map (·.hash)).Nodup) (hcycle : DependsOn txs h h) :
      Settles txs (some (.error (.inconsistentPool (.cycle h))))
  | shown {s : Snapshot} {closed : Closed} (hdistinct : (txs.map (·.hash)).Nodup)
      (hacyclic : ∀ h, ¬DependsOn txs h h) (hbuilt : s.Built txs closed) (hshows : s.Shows txs) :
      Settles txs (some (.ok s))
  | givenUp {s : Snapshot} (hdistinct : (txs.map (·.hash)).Nodup)
      (hacyclic : ∀ h, ¬DependsOn txs h h) (hcandidates : s.candidates = txs)
      (hshows : s.Shows txs) (hunordered : ¬Orders precedes (s.entries txs)) : Settles txs none

variable {sorter : Sorter (Candidate × Package)}

theorem settles_ofCandidates (sorter : Sorter (Candidate × Package)) (txs : List Candidate) :
    Settles txs (ofCandidates sorter txs) := by
  cases hrepeated : repeated? [] txs with
  | some h =>
      have hresult : ofCandidates sorter txs = some (.error (.duplicate h)) := by
        simp only [ofCandidates, hrepeated]
      rw [hresult]
      apply Settles.repeated
      rw [← repeated?_eq_none_iff, hrepeated]
      simp
  | none =>
      have hdistinct : (txs.map (·.hash)).Nodup := repeated?_eq_none_iff.mp hrepeated
      have hcloses := closes_closeAll hdistinct
      cases hclosed : closeAll txs (sortedHashes txs) with
      | error c =>
          have hresult : ofCandidates sorter txs =
              some (.error (.inconsistentPool (.cycle c))) := by
            simp only [ofCandidates, hrepeated, hclosed]
          rw [hresult]
          rw [hclosed] at hcloses
          cases hcloses with
          | cycle hcycle => exact .cyclic hdistinct ((transGen_parents_iff hdistinct).mp hcycle)
      | ok closed =>
          rw [hclosed] at hcloses
          cases hcloses with
          | rows hordered hkeeps hfree hall =>
              have hacyclic : ∀ h, ¬DependsOn txs h h := by
                intro h hcycle
                have hh : h ∈ closedHashes closed := hall (mem_sortedHashes.mpr hcycle.mem_left)
                exact hordered.acyclic hh ((transGen_parents_iff hdistinct).mpr hcycle)
              -- the tables do not depend on the order of the candidates
              obtain ⟨s, hcandidates, htabled, hresult⟩ : ∃ s : Snapshot, s.candidates = txs ∧
                  s.Tabled txs closed ∧ ofCandidates sorter txs =
                    (sorter.sort? precedes (s.entries txs)).map fun sorted =>
                      .ok { s with candidates := sorted.map (·.1) } := by
                simp only [ofCandidates, hrepeated, hclosed]
                exact ⟨⟨txs, _, _⟩, rfl, ⟨rfl, rfl⟩, rfl⟩
              have hshows := htabled.shows hdistinct hordered hall
              rw [hresult]
              cases hsort : sorter.sort? precedes (s.entries txs) with
              | none =>
                  refine .givenUp hdistinct hacyclic hcandidates hshows fun horders => ?_
                  obtain ⟨sorted, hsorted, -⟩ := sorter.sort?_of_orders horders
                  nomatch hsort.symm.trans hsorted
              | some sorted =>
                  refine .shown hdistinct hacyclic
                    ⟨⟨htabled.ancestors_eq, htabled.descendants_eq⟩, sorted, rfl,
                      sorter.perm_of_sort? hsort, fun horders => ?_⟩
                    ⟨hshows.ancestors, hshows.descendants, hshows.unknown⟩
                  obtain ⟨same, hsame, hpairwise⟩ := sorter.sort?_of_orders horders
                  obtain rfl := Option.some.inj (hsort.symm.trans hsame)
                  exact hpairwise

/-- A list that a snapshot is made of. -/
theorem built_of_ofCandidates (hs : ofCandidates sorter txs = some (.ok s)) :
    (txs.map (·.hash)).Nodup ∧ (∀ h, ¬DependsOn txs h h) ∧ (∃ closed, s.Built txs closed) ∧
      s.Shows txs := by
  have hsettles := settles_ofCandidates sorter txs
  rw [hs] at hsettles
  cases hsettles with
  | @shown _ closed hdistinct hacyclic hbuilt hshows =>
      exact ⟨hdistinct, hacyclic, ⟨closed, hbuilt⟩, hshows⟩

/-- Two candidates spend a third one, and a fourth one spends both of them.  No two of the fees
fit a word. -/
def diamond : List Candidate :=
  let spending (h : Nat) (spent : List Nat) : Candidate :=
    ⟨⟨h⟩, 2, 2 ^ 63, 1000, 4, spent.map fun p => ⟨⟨⟨p⟩, 0⟩, finalSequence⟩, 0, false⟩
  [spending 4 [2, 3], spending 3 [1], spending 1 [9], spending 2 [1]]

end Snapshot

end BlockProduction

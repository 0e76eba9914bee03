import BlockProduction.Proofs.Selection.Simulation

/-!
# Queues in use

A queue may be used in any way: candidates are popped, removed and entered into
the block in any order, each entered once.  If the sums over all candidates fit
into words, every package outside the block is at any time what the candidate and
its ancestors outside the block sum up to, and the queue holds those who were
never popped or removed, with the best of them at its front.
-/

namespace BlockProduction

/-! ## Counts -/

namespace Package

theorem toNat_count_add (p : Package) (tx : Candidate) :
    (p.add tx).count.toNat = (p.count.toNat + 1) % 2 ^ 32 :=
  UInt32.toNat_add p.count 1

theorem toNat_count_remove (p : Package) (tx : Candidate) :
    (p.remove tx).count.toNat = p.count.toNat - 1 := by
  unfold remove
  by_cases hzero : p.count = 0
  · simp [hzero]
  · have hpos : 1 ≤ p.count.toNat := by
      have hne : p.count.toNat ≠ 0 := fun h => hzero (UInt32.toNat_inj.mp h)
      omega
    rw [if_neg hzero]
    exact UInt32.toNat_sub_of_le p.count 1 (UInt32.le_iff_toNat_le.mpr hpos)

end Package

namespace CandidateGraph

variable {g : CandidateGraph} {block : List (Fin g.size)}

theorem toNat_count_foldl_add (ids : List (Fin g.size)) (p : Package) :
    (ids.foldl (fun p a => p.add (g.tx a)) p).count.toNat =
      (p.count.toNat + ids.length) % 2 ^ 32 := by
  induction ids generalizing p with
  | nil => exact (Nat.mod_eq_of_lt p.count.toNat_lt).symm
  | cons id ids ih =>
      rw [List.foldl_cons, ih, Package.toNat_count_add, List.length_cons]
      omega

theorem toNat_count_foldl_remove (ids : List (Fin g.size)) (p : Package) :
    (ids.foldl (fun p a => p.remove (g.tx a)) p).count.toNat = p.count.toNat - ids.length := by
  induction ids generalizing p with
  | nil => rfl
  | cons id ids ih =>
      rw [List.foldl_cons, ih, Package.toNat_count_remove, List.length_cons]
      omega

/-- The count is a word of 32 bits: more members than that are not counted. -/
theorem toNat_count_reduced (hg : g.Consistent) (hnodup : block.Nodup) (id : Fin g.size) :
    (g.reduced block id).count.toNat =
      ((g.ancestorsOf id).length + 1) % 2 ^ 32 -
        ((g.ancestorsOf id).filter fun a => a ∈ block).length := by
  have hsingle : (Package.single (g.tx id)).count.toNat = 1 := rfl
  rw [reduced, toNat_count_foldl_remove, fullPackage, toNat_count_foldl_add, hsingle,
    (shared_perm hg hnodup id).length_eq, Nat.add_comm 1]

theorem length_remaining_add (block : List (Fin g.size)) (id : Fin g.size) :
    (g.remaining block id).length + ((g.ancestorsOf id).filter fun a => a ∈ block).length =
      (g.ancestorsOf id).length + 1 := by
  have hparts := List.length_eq_length_filter_add (l := g.ancestorsOf id)
    (fun a => decide (a ∈ block))
  simp only [← decide_not] at hparts
  rw [(remaining_perm block id).length_eq, List.length_cons]
  omega

end CandidateGraph

/-! ## Use -/

/-- What can be done to a queue. -/
inductive QueueStep (n : Nat) where
  | pop
  | remove (id : Fin n)
  | enter (id : Fin n)
  deriving DecidableEq

/-- The candidate that enters the block. -/
def QueueStep.entered? {n : Nat} : QueueStep n → Option (Fin n)
  | enter id => some id
  | _ => none

/-- A queue with what was done to it. -/
structure QueueUse (n : Nat) where
  queue : RankedQueue n
  /-- The candidates that were popped or removed. -/
  gone : List (Fin n)
  /-- The candidates that entered the block. -/
  block : List (Fin n)

namespace QueueUse

variable {g : CandidateGraph}

/-- A fresh queue, and an empty block. -/
def start (g : CandidateGraph) : QueueUse g.size :=
  ⟨.start g, [], []⟩

/-- Whether a candidate is in the block. -/
def inBlock (u : QueueUse g.size) : Vector Bool g.size :=
  .ofFn fun id => u.block.contains id

/-- Who was never popped or removed. -/
def left (u : QueueUse g.size) : List (Fin g.size) :=
  g.ids.filter fun id => !u.gone.contains id

def step (u : QueueUse g.size) : QueueStep g.size → QueueUse g.size
  | .pop =>
      match u.queue.pop? with
      | none => u
      | some (head, queue) => { u with queue, gone := u.gone ++ [head] }
  | .remove id => { u with queue := u.queue.remove id, gone := u.gone ++ [id] }
  | .enter id =>
      let entered := { u with block := u.block ++ [id] }
      { entered with queue := u.queue.onIncluded id entered.inBlock }

def run (g : CandidateGraph) (steps : List (QueueStep g.size)) : QueueUse g.size :=
  steps.foldl step (start g)

variable {u : QueueUse g.size}

theorem get_inBlock (id : Fin g.size) : u.inBlock.get id = decide (id ∈ u.block) := by
  simp [inBlock]

theorem mem_left {id : Fin g.size} : id ∈ u.left ↔ id ∉ u.gone := by
  simp [left]

theorem block_step (u : QueueUse g.size) (s : QueueStep g.size) :
    (u.step s).block = u.block ++ s.entered?.toList := by
  cases s with
  | pop =>
      simp only [step]
      split <;> simp [QueueStep.entered?]
  | remove id => simp [step, QueueStep.entered?]
  | enter id => rfl

/-- The queue holds who is left, and whoever is outside the block is reduced. -/
structure Sound (u : QueueUse g.size) : Prop where
  coherent : u.queue.Coherent
  waiting : ∀ id, u.queue.waiting.get id = decide (id ∉ u.gone)
  modified : ∀ id ∉ u.block, u.queue.modified.get id = g.reduced u.block id

/-! ## Each step -/

theorem sound_start (hg : g.Consistent) : (start g).Sound where
  coherent := .start hg
  waiting := by
    intro id
    simp [start, RankedQueue.start]
  modified := by
    intro id _
    simp [start, RankedQueue.start, CandidateGraph.reduced]

theorem Sound.pop (h : u.Sound) : (u.step .pop).Sound := by
  simp only [step]
  cases hpop : u.queue.pop? with
  | none => exact h
  | some popped =>
      obtain ⟨head, queue⟩ := popped
      obtain ⟨hcoherent, hmodified, -, hwaiting, -⟩ := h.coherent.pop? hpop
      refine ⟨hcoherent, ?_, ?_⟩
      · intro id
        rw [hwaiting, h.waiting, ← Bool.decide_and]
        simp
      · intro id hid
        simp only [hmodified]
        exact h.modified id hid

theorem Sound.remove (hg : g.Consistent) (h : u.Sound) (id : Fin g.size) :
    (u.step (.remove id)).Sound where
  coherent := h.coherent.remove hg id
  waiting := by
    intro j
    simp only [step]
    rw [RankedQueue.waiting_remove, h.waiting, ← Bool.decide_and]
    simp
  modified := by
    intro j hj
    simp only [step, RankedQueue.modified_remove]
    exact h.modified j hj

theorem Sound.enter (hg : g.Consistent) (h : u.Sound) {id : Fin g.size}
    (hnodup : (u.block ++ [id]).Nodup) (hweights : g.total .weight g.ids ≤ maxWord) :
    (u.step (.enter id)).Sound := by
  let entered : QueueUse g.size := { u with block := u.block ++ [id] }
  have hout : ∀ j, entered.inBlock.get j = false ↔ j ∉ u.block ++ [id] := by
    intro j
    rw [get_inBlock, decide_eq_false_iff_not]
  have hmodified : ∀ j, entered.inBlock.get j = false →
      u.queue.modified.get j = g.reduced u.block j := by
    intro j hj
    exact h.modified j fun hin => (hout j).mp hj (List.mem_append_left _ hin)
  obtain ⟨hcoherent, hwaiting, hreduced⟩ :=
    h.coherent.includeAll hg hmodified hnodup (.inr hweights)
  exact {
    coherent := hcoherent
    waiting := by
      intro j
      have hflag : _ = u.queue.waiting.get j := congrArg (Vector.get · j) hwaiting
      exact hflag.trans (h.waiting j)
    modified := fun j hj => hreduced j ((hout j).mpr hj) }

theorem Sound.step (hg : g.Consistent) (hweights : g.total .weight g.ids ≤ maxWord) (h : u.Sound)
    {s : QueueStep g.size} (hnodup : (u.step s).block.Nodup) : (u.step s).Sound := by
  cases s with
  | pop => exact h.pop
  | remove id => exact h.remove hg id
  | enter id => exact h.enter hg hnodup hweights

theorem Sound.foldl (hg : g.Consistent) (hweights : g.total .weight g.ids ≤ maxWord) (h : u.Sound)
    {steps : List (QueueStep g.size)}
    (hnodup : (u.block ++ steps.filterMap QueueStep.entered?).Nodup) :
    (steps.foldl QueueUse.step u).Sound ∧
      (steps.foldl QueueUse.step u).block = u.block ++ steps.filterMap QueueStep.entered? := by
  induction steps generalizing u with
  | nil => exact ⟨h, by simp⟩
  | cons s steps ih =>
      have hblock : u.block ++ (s :: steps).filterMap QueueStep.entered? =
          (u.step s).block ++ steps.filterMap QueueStep.entered? := by
        rw [block_step, List.append_assoc]
        cases s <;> rfl
      rw [hblock] at hnodup ⊢
      have hnext := h.step hg hweights (List.nodup_append.mp hnodup).1
      exact ih hnext hnodup

/-! ## What a queue tells -/

/-- What can be read off a queue at any time. -/
structure Tracks (u : QueueUse g.size) : Prop where
  /-- Packages outside the block have the exact sums of what remains of them. -/
  figures : ∀ id ∉ u.block, ∀ f : Figure,
    (f.ofPackage (u.queue.modified.get id)).toNat = g.total f (g.remaining u.block id)
  /-- They are counted as well, if a count of 32 bits can hold the full package. -/
  count : ∀ id ∉ u.block, (g.ancestorsOf id).length + 1 < 2 ^ 32 →
    (u.queue.modified.get id).count.toNat = (g.remaining u.block id).length
  places : (u.queue.places.keys.map (·.id)).Perm u.left
  length : u.queue.length = u.left.length
  isEmpty : u.queue.isEmpty = true ↔ u.left = []
  weighed : ∀ id ∈ u.left, (u.queue.modified.get id).weight ≠ 0
  pop?_eq_none : u.queue.pop? = none ↔ u.left = []
  /-- Among those who are left the higher rate goes first, then the lower hash. -/
  pop?_eq_some : ∀ {head rest}, u.queue.pop? = some (head, rest) →
    head ∈ u.left ∧ ∀ id ∈ u.left, g.leads u.queue.modified.get head id = true

theorem Sound.places (h : u.Sound) :
    (u.queue.places.keys.map (·.id)).Perm u.left := by
  have hnodup : (u.queue.places.keys.map (·.id)).Nodup := by
    refine List.pairwise_map.mpr (h.coherent.increasing.imp_of_mem ?_)
    intro a b ha hb hlt heq
    rw [(h.coherent.mem_keys.mp ha).2, (h.coherent.mem_keys.mp hb).2, heq] at hlt
    exact lt_irrefl _ hlt
  refine (List.perm_ext_iff_of_nodup hnodup ((List.nodup_finRange _).filter _)).mpr ?_
  intro id
  have hkey : id ∈ u.queue.places.keys.map (·.id) ↔ u.queue.waiting.get id = true := by
    rw [List.mem_map]
    constructor
    · rintro ⟨k, hk, rfl⟩
      exact (h.coherent.mem_keys.mp hk).1
    · intro hwaiting
      exact ⟨u.queue.key id, h.coherent.key_mem_iff.mpr hwaiting, rfl⟩
  rw [hkey, h.waiting, decide_eq_true_eq]
  exact mem_left.symm

theorem Sound.tracks (hg : g.Consistent) (hfits : ∀ f, g.total f g.ids ≤ maxWord)
    (hnodup : u.block.Nodup) (h : u.Sound) : u.Tracks := by
  have hplaces := h.places
  have hwaiting : ∀ id, u.queue.waiting.get id = true ↔ id ∈ u.left := by
    intro id
    rw [h.waiting, decide_eq_true_eq, mem_left]
  have hlength : u.queue.length = u.left.length := by
    rw [← hplaces.length_eq, List.length_map]
    rfl
  exact {
    figures := by
      intro id hid f
      have hparts := CandidateGraph.total_remaining_add f u.block id
      have hall := CandidateGraph.total_le_ids (List.nodup_cons.mpr
        ⟨hg.not_mem_ancestors_self id, hg.ancestors_nodup id⟩) f
      have hfit := hfits f
      rw [h.modified id hid, CandidateGraph.toNat_reduced hg hnodup]
      omega
    count := by
      intro id hid hcount
      have hparts := CandidateGraph.length_remaining_add u.block id
      rw [h.modified id hid, CandidateGraph.toNat_count_reduced hg hnodup]
      omega
    places := hplaces
    length := hlength
    isEmpty := by
      rw [← List.length_eq_zero_iff, ← hlength]
      simp [RankedQueue.isEmpty, RankedQueue.length]
    weighed := fun id hid => h.coherent.weighed id ((hwaiting id).mpr hid)
    pop?_eq_none := by
      rw [h.coherent.pop?_eq_none_iff, List.eq_nil_iff_forall_not_mem]
      simp only [← hwaiting, Bool.not_eq_true]
    pop?_eq_some := by
      intro head rest hpop
      obtain ⟨-, -, hhead, -, hbest⟩ := h.coherent.pop? hpop
      refine ⟨(hwaiting head).mp hhead, fun id hid => ?_⟩
      rw [RankedQueue.leads_iff_standing]
      by_cases heq : id = head
      · rw [heq]
      · exact le_of_lt (hbest id ((hwaiting id).mpr hid) heq) }

/-- After any steps that enter nobody twice, the queue of a graph whose sums fit into words holds
who is left, the best at its front, and packages are what remains of them. -/
theorem run_tracks {view : PoolView} (hview : CandidateGraph.ofView view = .ok g)
    (hfits : ∀ f, g.total f g.ids ≤ maxWord) {steps : List (QueueStep g.size)}
    (hnodup : (steps.filterMap QueueStep.entered?).Nodup) : (run g steps).Tracks := by
  have hg := CandidateGraph.consistent_of_ofView hview
  obtain ⟨hsound, hblock⟩ := (sound_start hg).foldl hg (hfits .weight) hnodup
  have hblock' : (run g steps).block.Nodup := by
    rw [run, hblock]
    exact hnodup
  exact hsound.tracks hg hfits hblock'

/-- The best of the family is popped, then everybody enters the block. -/
theorem run_tracks_family : ∃ g, CandidateGraph.ofView familyPool = .ok g ∧
    (∀ f, g.total f g.ids ≤ maxWord) ∧ (run g (.pop :: g.ids.map .enter)).Tracks := by
  obtain ⟨g, hview⟩ := familyPool_accepted
  have hfits : ∀ f, g.total f g.ids ≤ maxWord := by
    intro f
    rw [(CandidateGraph.represents_of_ofView hview).total_ids]
    cases f <;> decide
  have hentered : (g.ids.map QueueStep.enter).filterMap QueueStep.entered? = g.ids := by
    rw [List.filterMap_map]
    exact List.filterMap_some
  have hnodup : ((.pop :: g.ids.map .enter).filterMap QueueStep.entered?).Nodup := by
    rw [List.filterMap_cons_none rfl, hentered]
    exact List.nodup_finRange _
  exact ⟨g, hview, hfits, run_tracks hview hfits hnodup⟩

end QueueUse

end BlockProduction

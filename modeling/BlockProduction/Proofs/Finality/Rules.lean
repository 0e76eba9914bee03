import BlockProduction.Finality
import Mathlib

/-!
# The rules of finality, input by input

A transaction may stand in a block when its lock time has passed, when the lock
of each of its inputs has run out, and when no block reward that it spends is too
young.  Said like this, the rules need no last locked height or time, and no word
that such a time may run over.

Main statement: as long as the times up to which inputs are locked fit into
their words, exactly the transactions that keep these rules pass, and of the
others the first broken rule is told, relative locks with the greatest height
and time up to which an input is locked.
-/

namespace BlockProduction.Finality

/-! ## What the rules say -/

/-- The lock time is zero, or below the height or the time that it is compared with, or no input
takes part in locks. -/
def LockTimePassed (tx : Candidate) (height : UInt32) (cutoff : Int64) : Prop :=
  tx.lockTime.toNat = 0 ∨
    (if tx.lockTime.toNat < 500000000 then tx.lockTime.toNat < height.toNat
      else (tx.lockTime.toNat : Int) < cutoff.toInt) ∨
    ∀ input ∈ tx.inputs, input.sequence.toNat = 0xffffffff

/-- Whether the sequences of a transaction lock its inputs. -/
def Enforces (tx : Candidate) (flags : LockFlags) : Prop :=
  flags.verifySequence = true ∧ 2 ≤ tx.version.toInt

/-- An input has a relative lock unless bit 31 of its sequence is set. -/
def HasLock (input : TxInput) : Prop :=
  input.sequence.toNat.testBit 31 = false

/-- Bit 22 of a sequence makes the lock one of time. -/
def LocksTime (input : TxInput) : Prop :=
  input.sequence.toNat.testBit 22 = true

instance (tx : Candidate) (flags : LockFlags) : Decidable (Enforces tx flags) :=
  inferInstanceAs (Decidable (_ ∧ _))

instance (input : TxInput) : Decidable (HasLock input) :=
  inferInstanceAs (Decidable (_ = false))

instance (input : TxInput) : Decidable (LocksTime input) :=
  inferInstanceAs (Decidable (_ = true))

/-- The length of a relative lock, in blocks or in units of 512 seconds. -/
def lockLength (input : TxInput) : Nat :=
  input.sequence.toNat % 2 ^ 16

/-- The lock of an input, if it has one, has run out for a block at a height above a tip with a
time. -/
def Unlocked (height : UInt32) (tipTime : Int64) (input : TxInput) (c : Confirmation) : Prop :=
  HasLock input →
    if LocksTime input then c.medianTimePast.toInt + 512 * lockLength input ≤ tipTime.toInt
    else c.height.toNat + lockLength input ≤ height.toNat

/-- The tip has a time, and the lock of every input has run out where locks count. -/
def LocksPassed (tx : Candidate) (flags : LockFlags) (context : InputContext) : Prop :=
  0 ≤ context.tipTime.toInt ∧ (Enforces tx flags →
    List.Forall₂ (Unlocked context.targetHeight context.tipTime) tx.inputs context.confirmations)

/-- A block reward is old enough to be spent at a height. -/
def Mature (height : UInt32) (c : Confirmation) : Prop :=
  c.isCoinbase = true → c.height.toNat + 100 ≤ height.toNat

/-- A transaction that is known to spend block rewards spends none that is too young. -/
def RewardsMature (tx : Candidate) (context : InputContext) : Prop :=
  tx.spendsCoinbase = true → ∀ c ∈ context.confirmations, Mature context.targetHeight c

/-- The last heights at which inputs are locked. -/
def lockedHeights (tx : Candidate) (flags : LockFlags) (confirmations : List Confirmation) :
    Set Int :=
  {last | Enforces tx flags ∧ ∃ pair ∈ tx.inputs.zip confirmations,
    (HasLock pair.1 ∧ ¬LocksTime pair.1) ∧ last = pair.2.height.toNat + lockLength pair.1 - 1}

/-- The last times at which inputs are locked. -/
def lockedTimes (tx : Candidate) (flags : LockFlags) (confirmations : List Confirmation) :
    Set Int :=
  {last | Enforces tx flags ∧ ∃ pair ∈ tx.inputs.zip confirmations,
    (HasLock pair.1 ∧ LocksTime pair.1) ∧
      last = pair.2.medianTimePast.toInt + 512 * lockLength pair.1 - 1}

/-- The last times at which inputs are locked fit into their words. -/
def TimesFit (tx : Candidate) (flags : LockFlags) (confirmations : List Confirmation) : Prop :=
  ∀ last ∈ lockedTimes tx flags confirmations, -2 ^ 63 ≤ last ∧ last < 2 ^ 63

/-- Lock points tell the latest locks of all inputs, or minus one where nothing locks them. -/
structure Latest (tx : Candidate) (flags : LockFlags) (confirmations : List Confirmation)
    (points : LockPoints) : Prop where
  height : IsGreatest (insert (-1) (lockedHeights tx flags confirmations)) points.minHeight.toInt
  time : IsGreatest (insert (-1) (lockedTimes tx flags confirmations)) points.minTime.toInt

/-- What is told of the first rule that a transaction breaks. -/
inductive FirstBroken (tx : Candidate) (flags : LockFlags) (cutoff : Int64)
    (context : InputContext) : Failure → Prop
  | lockTime (hlocked : ¬LockTimePassed tx context.targetHeight cutoff) :
      FirstBroken tx flags cutoff context (.lockTime tx.lockTime)
  | sequenceLock {points : LockPoints} (hfinal : LockTimePassed tx context.targetHeight cutoff)
      (hlocked : ¬LocksPassed tx flags context)
      (hlatest : Latest tx flags context.confirmations points) :
      FirstBroken tx flags cutoff context (.sequenceLock points)
  | immatureCoinbase {before after : List Confirmation} {c : Confirmation}
      (hfinal : LockTimePassed tx context.targetHeight cutoff)
      (hpassed : LocksPassed tx flags context) (hspends : tx.spendsCoinbase = true)
      (hsplit : context.confirmations = before ++ c :: after)
      (hbefore : ∀ earlier ∈ before, Mature context.targetHeight earlier)
      (hyoung : ¬Mature context.targetHeight c) :
      FirstBroken tx flags cutoff context (.immatureCoinbase c.height)

variable {tx : Candidate} {flags : LockFlags} {cutoff tipTime : Int64} {context : InputContext}
  {input : TxInput} {c : Confirmation} {confirmations : List Confirmation} {height : UInt32}
  {points : LockPoints}

theorem toInt_ofNat_toNat (word : UInt32) : (Int64.ofNat word.toNat).toInt = word.toNat := by
  have hlt := word.toNat_lt
  exact Int64.toInt_ofNat_of_lt (by omega)

/-! ## The lock time -/

theorem isFinal_iff : isFinal tx height cutoff = true ↔ LockTimePassed tx height cutoff := by
  have hzero : tx.lockTime = 0 ↔ tx.lockTime.toNat = 0 := UInt32.toNat_inj.symm
  have hbelow : tx.lockTime < lockTimeThreshold ↔ tx.lockTime.toNat < 500000000 :=
    UInt32.lt_iff_toNat_lt
  have hsequence : ∀ input : TxInput,
      input.sequence = finalSequence ↔ input.sequence.toNat = 0xffffffff :=
    fun _ => UInt32.toNat_inj.symm
  simp only [isFinal, LockTimePassed, Bool.or_eq_true, beq_iff_eq, decide_eq_true_eq,
    List.all_eq_true, hzero, hbelow, hsequence, or_assoc, Int64.lt_iff_toInt_lt, toInt_ofNat_toNat]
  split
  · rw [toInt_ofNat_toNat, Int.ofNat_lt]
  · rfl

/-! ## One lock -/

theorem and_bit_ne_zero_iff {sequence mask : UInt32} {i : Nat} (hmask : mask.toNat = 2 ^ i) :
    (sequence &&& mask != 0) = true ↔ sequence.toNat.testBit i = true := by
  rw [bne_iff_ne, ne_eq, ← UInt32.toNat_inj, UInt32.toNat_and, hmask, Nat.and_two_pow]
  cases sequence.toNat.testBit i <;> simp

theorem toNat_and_lengthMask (input : TxInput) :
    (input.sequence &&& lengthMask).toNat = lockLength input := by
  rw [UInt32.toNat_and, lockLength, ← Nat.and_two_pow_sub_one_eq_mod]
  rfl

theorem lockLength_lt (input : TxInput) : lockLength input < 2 ^ 16 :=
  Nat.mod_lt _ (by decide)

theorem toInt_length (input : TxInput) :
    (Int64.ofNat (input.sequence &&& lengthMask).toNat).toInt = lockLength input := by
  rw [toInt_ofNat_toNat, toNat_and_lengthMask]

/-- A lock of height always fits. -/
theorem toInt_lastHeight (input : TxInput) (c : Confirmation) :
    (.ofNat c.height.toNat + .ofNat (input.sequence &&& lengthMask).toNat - 1 : Int64).toInt =
      c.height.toNat + lockLength input - 1 := by
  have hheight := c.height.toNat_lt
  have hlength := lockLength_lt input
  rw [Int64.toInt_sub, Int64.toInt_add, toInt_ofNat_toNat, toInt_length, Int.bmod_sub_bmod]
  exact Int.bmod_eq_of_le (by simp; omega) (by simp; omega)

/-- A lock of time may run over its word. -/
theorem toInt_lastTime (input : TxInput) (c : Confirmation) :
    (c.medianTimePast + .ofNat (input.sequence &&& lengthMask).toNat * timeUnit - 1 : Int64).toInt =
      (c.medianTimePast.toInt + 512 * lockLength input - 1).bmod (2 ^ 64) := by
  have hunit : timeUnit.toInt = 512 := by decide
  have hone : (1 : Int64).toInt = 1 := by decide
  rw [Int64.toInt_sub, Int64.toInt_add, Int64.toInt_mul, toInt_length, hunit, hone,
    Int.add_bmod_bmod, Int.bmod_sub_bmod, Int.mul_comm]

/-- Where nothing locks an input, minus one stands for its last locked height and time. -/
theorem toInt_inputLock (input : TxInput) (c : Confirmation) :
    (inputLock input c).minHeight.toInt =
      (if HasLock input ∧ ¬LocksTime input then (c.height.toNat + lockLength input - 1 : Int)
        else -1) ∧
    (inputLock input c).minTime.toInt =
      (if HasLock input ∧ LocksTime input then
        (c.medianTimePast.toInt + 512 * lockLength input - 1).bmod (2 ^ 64) else -1) := by
  have hdisabled : (input.sequence &&& disableBit != 0) = true ↔ ¬HasLock input := by
    rw [and_bit_ne_zero_iff (i := 31) rfl, HasLock, Bool.not_eq_false]
  have htime : (input.sequence &&& timeBit != 0) = true ↔ LocksTime input :=
    and_bit_ne_zero_iff rfl
  have hminus : (-1 : Int64).toInt = -1 := by decide
  unfold inputLock
  simp only [hdisabled, htime, ite_not]
  by_cases hlock : HasLock input
  · by_cases hkind : LocksTime input
    · simp only [hlock, hkind, if_true, not_true, and_false, and_self, if_false]
      exact ⟨hminus, toInt_lastTime input c⟩
    · simp only [hlock, hkind, if_true, not_false_eq_true, and_self, and_false, if_false]
      exact ⟨toInt_lastHeight input c, hminus⟩
  · simp only [hlock, if_false, false_and]
    exact ⟨hminus, hminus⟩

/-! ## Locks that have run out -/

theorem passed_iff : points.passed height tipTime = true ↔
    points.minHeight.toInt < height.toNat ∧ points.minTime.toInt < tipTime.toInt := by
  rw [LockPoints.passed, Bool.and_eq_true, decide_eq_true_iff, decide_eq_true_iff,
    Int64.lt_iff_toInt_lt, Int64.lt_iff_toInt_lt, toInt_ofNat_toNat]

/-- Where nothing locks, all that is asked is that the tip has a time. -/
theorem passed_unlocked_iff :
    LockPoints.unlocked.passed height tipTime = true ↔ 0 ≤ tipTime.toInt := by
  have hminus : (-1 : Int64).toInt = -1 := by decide
  rw [passed_iff, LockPoints.unlocked, hminus]
  omega

theorem toInt_max (a b : Int64) : (max a b).toInt = max a.toInt b.toInt := by
  show (if a ≤ b then b else a).toInt = _
  rw [max_def]
  simp only [Int64.le_iff_toInt_le]
  split <;> rfl

theorem passed_max_iff {p q : LockPoints} : (p.max q).passed height tipTime = true ↔
    p.passed height tipTime = true ∧ q.passed height tipTime = true := by
  simp only [passed_iff, LockPoints.max, toInt_max, max_lt_iff]
  exact and_and_and_comm

theorem passed_foldl_max_iff {α : Type} (lock : α → LockPoints) (as : List α)
    (start : LockPoints) :
    (as.foldl (fun points a => points.max (lock a)) start).passed height tipTime = true ↔
      start.passed height tipTime = true ∧ ∀ a ∈ as, (lock a).passed height tipTime = true := by
  induction as generalizing start with
  | nil => simp
  | cons a as ih => rw [List.foldl_cons, ih, passed_max_iff, List.forall_mem_cons, and_assoc]

theorem sequenceLocks_eq (tx : Candidate) (flags : LockFlags) (confirmations : List Confirmation) :
    sequenceLocks tx flags confirmations =
      if Enforces tx flags then
        (tx.inputs.zip confirmations).foldl
          (fun points pair => points.max (inputLock pair.1 pair.2)) .unlocked
      else .unlocked := by
  have hversion : tx.version < minLockVersion ↔ ¬2 ≤ tx.version.toInt :=
    Int32.lt_iff_toInt_lt.trans Int.not_le.symm
  have hcount : (!flags.verifySequence || decide (tx.version < minLockVersion)) = true ↔
      ¬Enforces tx flags := by
    rw [Enforces, not_and_or, Bool.or_eq_true, decide_eq_true_iff, hversion, Bool.not_eq_true',
      Bool.not_eq_true]
  simp only [sequenceLocks, hcount, ite_not]

/-- Relative locks have run out when each of them has and the tip has a time. -/
theorem locksPassed_iff_each : locksPassed tx flags context = true ↔
    0 ≤ context.tipTime.toInt ∧ (Enforces tx flags →
      ∀ input c, (input, c) ∈ tx.inputs.zip context.confirmations →
        (inputLock input c).passed context.targetHeight context.tipTime = true) := by
  rw [locksPassed, sequenceLocks_eq]
  by_cases hcount : Enforces tx flags
  · simp only [hcount, if_true, passed_foldl_max_iff, passed_unlocked_iff, forall_const,
      Prod.forall]
  · simp only [hcount, if_false, passed_unlocked_iff, false_imp_iff, and_true]

theorem bmod_eq_self {x : Int} (h : -2 ^ 63 ≤ x ∧ x < 2 ^ 63) : x.bmod (2 ^ 64) = x :=
  Int.bmod_eq_of_le (by omega) (by omega)

/-- A lock has run out behind the last height or time at which it locks. -/
theorem passed_inputLock_iff (htip : 0 ≤ tipTime.toInt) (hfit : HasLock input ∧ LocksTime input →
      -2 ^ 63 ≤ c.medianTimePast.toInt + 512 * lockLength input - 1 ∧
        c.medianTimePast.toInt + 512 * lockLength input - 1 < 2 ^ 63) :
    (inputLock input c).passed height tipTime = true ↔ Unlocked height tipTime input c := by
  obtain ⟨hheight, htime⟩ := toInt_inputLock input c
  rw [passed_iff, hheight, htime, Unlocked]
  by_cases hlock : HasLock input
  · by_cases hkind : LocksTime input
    · simp only [hlock, hkind, if_true, forall_const, not_true, and_false, and_self, if_false,
        bmod_eq_self (hfit ⟨hlock, hkind⟩)]
      omega
    · simp only [hlock, hkind, if_false, forall_const, not_false_eq_true, and_false, and_self,
        if_true]
      omega
  · simp only [hlock, false_and, if_false, false_imp_iff, iff_true]
    omega

theorem locksPassed_iff (h : tx.inputs.length = context.confirmations.length)
    (hfit : TimesFit tx flags context.confirmations) :
    locksPassed tx flags context = true ↔ LocksPassed tx flags context := by
  rw [locksPassed_iff_each, LocksPassed]
  refine and_congr_right fun htip => imp_congr_right fun hcount => ?_
  rw [List.forall₂_iff_zip]
  simp only [h, true_and]
  refine forall₂_congr fun input c => forall_congr' fun hpair => ?_
  exact passed_inputLock_iff htip fun hlock => hfit _ ⟨hcount, (input, c), hpair, hlock, rfl⟩

/-! ## The latest lock -/

theorem isGreatest_foldl_max {α : Type} (f : α → Int) (as : List α) (start : Int) :
    IsGreatest (insert start {x | ∃ a ∈ as, x = f a})
      (as.foldl (fun latest a => max latest (f a)) start) := by
  induction as generalizing start with
  | nil => simp
  | cons a as ih =>
      obtain ⟨hmem, hupper⟩ := ih (max start (f a))
      have hmax := hupper (Set.mem_insert _ _)
      rw [List.foldl_cons]
      constructor
      · rcases hmem with heq | ⟨b, hb, heq⟩
        · rcases max_choice start (f a) with hstart | hhead
          · exact .inl (heq.trans hstart)
          · exact .inr ⟨a, List.mem_cons_self, heq.trans hhead⟩
        · exact .inr ⟨b, List.mem_cons_of_mem a hb, heq⟩
      · rintro x (rfl | ⟨b, hb, rfl⟩)
        · exact le_trans (le_max_left _ _) hmax
        · rcases List.mem_cons.mp hb with rfl | hrest
          · exact le_trans (le_max_right _ _) hmax
          · exact hupper (.inr ⟨b, hrest, rfl⟩)

/-- The start counts already, so that it may stand for all that do not count. -/
theorem insert_setOf_ite {α : Type} {p : α → Prop} [DecidablePred p] {f g : α → Int} {as : List α}
    {start : Int} (h : ∀ a ∈ as, g a = if p a then f a else start) :
    insert start {x | ∃ a ∈ as, x = g a} = insert start {x | ∃ a ∈ as, p a ∧ x = f a} := by
  ext x
  simp only [Set.mem_insert_iff, Set.mem_ofPred_eq]
  grind

/-- One component of the latest lock, when it is that of a single lock for the inputs that `p`
tells and minus one for all others. -/
theorem isGreatest_component (component : LockPoints → Int)
    (hmax : ∀ a b, component (a.max b) = max (component a) (component b))
    (hunlocked : component .unlocked = -1) {p : TxInput × Confirmation → Prop} [DecidablePred p]
    {last : TxInput × Confirmation → Int} {pairs : List (TxInput × Confirmation)}
    (hlock : ∀ pair ∈ pairs,
      component (inputLock pair.1 pair.2) = if p pair then last pair else -1) :
    IsGreatest (insert (-1) {x | ∃ pair ∈ pairs, p pair ∧ x = last pair})
      (component (pairs.foldl (fun points pair => points.max (inputLock pair.1 pair.2))
        .unlocked)) := by
  have hfold : component (pairs.foldl (fun points pair => points.max (inputLock pair.1 pair.2))
      .unlocked) = pairs.foldl (fun latest pair => max latest (component (inputLock pair.1 pair.2)))
        (component .unlocked) :=
    (List.foldl_hom component fun _ _ => (hmax _ _).symm).symm
  rw [hfold, hunlocked, ← insert_setOf_ite hlock]
  exact isGreatest_foldl_max _ pairs (-1)

theorem latest_sequenceLocks (hfit : TimesFit tx flags confirmations) :
    Latest tx flags confirmations (sequenceLocks tx flags confirmations) := by
  rw [sequenceLocks_eq]
  by_cases hcount : Enforces tx flags
  · rw [if_pos hcount]
    constructor
    · simp only [lockedHeights, hcount, true_and]
      exact isGreatest_component (fun points => points.minHeight.toInt) (fun _ _ => toInt_max _ _)
        rfl fun pair _ => (toInt_inputLock pair.1 pair.2).1
    · simp only [lockedTimes, hcount, true_and]
      refine isGreatest_component (fun points => points.minTime.toInt) (fun _ _ => toInt_max _ _)
        rfl fun pair hpair => ?_
      rw [(toInt_inputLock pair.1 pair.2).2]
      split
      · next hlock => exact bmod_eq_self (hfit _ ⟨hcount, pair, hpair, hlock, rfl⟩)
      · rfl
  · rw [if_neg hcount]
    constructor
    · simp [lockedHeights, hcount, LockPoints.unlocked]
    · simp [lockedTimes, hcount, LockPoints.unlocked]

theorem Latest.unique {p q : LockPoints} (hp : Latest tx flags confirmations p)
    (hq : Latest tx flags confirmations q) : p = q := by
  cases p
  cases q
  exact congrArg₂ LockPoints.mk (Int64.toInt_inj.mp (hp.height.unique hq.height))
    (Int64.toInt_inj.mp (hp.time.unique hq.time))

/-! ## Block rewards -/

theorem isMature_iff {confirmedAt : UInt32} : isMature confirmedAt height = true ↔
    confirmedAt.toNat + 100 ≤ height.toNat := by
  rw [isMature, decide_eq_true_iff, show coinbaseMaturity.toNat = 100 from rfl]
  omega

theorem young_iff : (c.isCoinbase && !isMature c.height height) = true ↔ ¬Mature height c := by
  rw [Bool.and_eq_true, Bool.not_eq_true', ← Bool.not_eq_true, isMature_iff, Mature,
    Classical.not_imp]

theorem immature?_eq_none_iff : immature? tx context = none ↔ RewardsMature tx context := by
  unfold immature? RewardsMature
  cases tx.spendsCoinbase with
  | false => simp
  | true => simp [isMature_iff, Mature]

theorem mature_iff : (!(c.isCoinbase && !isMature c.height height)) = true ↔ Mature height c := by
  rw [Bool.not_eq_true', ← Bool.not_eq_true, young_iff, Classical.not_not]

/-- The first young reward is told. -/
theorem immature?_eq_some_iff {failure : Failure} : immature? tx context = some failure ↔
    tx.spendsCoinbase = true ∧ ∃ c, (¬Mature context.targetHeight c ∧ ∃ before after,
      context.confirmations = before ++ c :: after ∧
        ∀ earlier ∈ before, Mature context.targetHeight earlier) ∧
      .immatureCoinbase c.height = failure := by
  unfold immature?
  cases tx.spendsCoinbase with
  | false => simp
  | true =>
      simp only [Bool.not_true, Bool.false_eq_true, if_false, Option.map_eq_some_iff,
        List.find?_eq_some_iff_append, young_iff, mature_iff, true_and]

/-! ## The first broken rule -/

/-- The rules are asked one after the other. -/
theorem failure?_eq (tx : Candidate) (flags : LockFlags) (cutoff : Int64) (context : InputContext) :
    failure? tx flags cutoff context =
      if isFinal tx context.targetHeight cutoff = true then
        if locksPassed tx flags context = true then immature? tx context
        else some (.sequenceLock (sequenceLocks tx flags context.confirmations))
      else some (.lockTime tx.lockTime) := by
  unfold failure? locksPassed
  dsimp only
  cases isFinal tx context.targetHeight cutoff with
  | false => rfl
  | true =>
      cases (sequenceLocks tx flags context.confirmations).passed context.targetHeight
          context.tipTime with
      | false => rfl
      | true => rfl

theorem failure?_eq_none_iff : failure? tx flags cutoff context = none ↔
    isFinal tx context.targetHeight cutoff = true ∧ locksPassed tx flags context = true ∧
      immature? tx context = none := by
  rw [failure?_eq]
  by_cases hfinal : isFinal tx context.targetHeight cutoff = true
  · by_cases hpassed : locksPassed tx flags context = true
    · simp [hfinal, hpassed]
    · simp [hfinal, hpassed]
  · simp [hfinal]

theorem failure?_eq_some_iff {failure : Failure} :
    failure? tx flags cutoff context = some failure ↔
      (¬isFinal tx context.targetHeight cutoff = true ∧ .lockTime tx.lockTime = failure) ∨
      (isFinal tx context.targetHeight cutoff = true ∧ ¬locksPassed tx flags context = true ∧
        .sequenceLock (sequenceLocks tx flags context.confirmations) = failure) ∨
      (isFinal tx context.targetHeight cutoff = true ∧ locksPassed tx flags context = true ∧
        immature? tx context = some failure) := by
  rw [failure?_eq]
  by_cases hfinal : isFinal tx context.targetHeight cutoff = true
  · by_cases hpassed : locksPassed tx flags context = true
    · simp [hfinal, hpassed]
    · simp [hfinal, hpassed]
  · simp [hfinal]

section

variable (h : tx.inputs.length = context.confirmations.length)
  (hfit : TimesFit tx flags context.confirmations)
include h hfit

theorem failure?_eq_none_iff_keeps : failure? tx flags cutoff context = none ↔
    LockTimePassed tx context.targetHeight cutoff ∧ LocksPassed tx flags context ∧
      RewardsMature tx context := by
  rw [failure?_eq_none_iff, isFinal_iff, locksPassed_iff h hfit, immature?_eq_none_iff]

theorem failure?_eq_some_iff_firstBroken {failure : Failure} :
    failure? tx flags cutoff context = some failure ↔
      FirstBroken tx flags cutoff context failure := by
  have hlatest := latest_sequenceLocks hfit
  rw [failure?_eq_some_iff, isFinal_iff, locksPassed_iff h hfit, immature?_eq_some_iff]
  constructor
  · rintro (⟨hlocked, rfl⟩ | ⟨hfinal, hlocked, rfl⟩ |
      ⟨hfinal, hpassed, hspends, c, ⟨hyoung, before, after, hsplit, hbefore⟩, rfl⟩)
    · exact .lockTime hlocked
    · exact .sequenceLock hfinal hlocked hlatest
    · exact .immatureCoinbase hfinal hpassed hspends hsplit hbefore hyoung
  · rintro (hlocked | ⟨hfinal, hlocked, hpoints⟩ |
      ⟨hfinal, hpassed, hspends, hsplit, hbefore, hyoung⟩)
    · exact .inl ⟨hlocked, rfl⟩
    · exact .inr (.inl ⟨hfinal, hlocked, congrArg _ (hlatest.unique hpoints)⟩)
    · exact .inr (.inr ⟨hfinal, hpassed, hspends, _, ⟨hyoung, _, _, hsplit, hbefore⟩, rfl⟩)

/-- With one confirmation for each input, and with locks that fit into their words, exactly the
transactions that keep all rules pass, and of the others the first broken rule is told. -/
theorem admissible_exactly :
    (failure? tx flags cutoff context = none ↔ LockTimePassed tx context.targetHeight cutoff ∧
      LocksPassed tx flags context ∧ RewardsMature tx context) ∧
    ∀ failure, failure? tx flags cutoff context = some failure ↔
      FirstBroken tx flags cutoff context failure :=
  ⟨failure?_eq_none_iff_keeps h hfit, fun _ => failure?_eq_some_iff_firstBroken h hfit⟩

end

/-- Two locks of height, one of time and an input without a lock. -/
def lockedTx : Candidate :=
  ⟨⟨1⟩, 2, 1000, 800, 4,
    [⟨⟨⟨9⟩, 0⟩, 5⟩, ⟨⟨⟨9⟩, 1⟩, 20⟩, ⟨⟨⟨9⟩, 2⟩, 0x00400002⟩, ⟨⟨⟨9⟩, 3⟩, 0x8000ffff⟩], 203, false⟩

/-- The block is the last one in which the second input is locked. -/
def lockedContext : InputContext :=
  ⟨204, 1600001024, [⟨190, 0, false⟩, ⟨185, 0, false⟩, ⟨150, 1600000000, false⟩, ⟨204, 0, false⟩]⟩

theorem admissible_exactly_lockedTx :
    lockedTx.inputs.length = lockedContext.confirmations.length ∧
    TimesFit lockedTx default lockedContext.confirmations ∧
    failure? lockedTx default 0 lockedContext = some (.sequenceLock ⟨204, 1600001023⟩) ∧
    FirstBroken lockedTx default 0 lockedContext (.sequenceLock ⟨204, 1600001023⟩) := by
  have hlength : lockedTx.inputs.length = lockedContext.confirmations.length := rfl
  have hfailure : failure? lockedTx default 0 lockedContext =
      some (.sequenceLock ⟨204, 1600001023⟩) := by decide
  have hfit : TimesFit lockedTx default lockedContext.confirmations := by
    rintro last ⟨-, pair, hpair, -, rfl⟩
    revert pair
    decide
  exact ⟨hlength, hfit, hfailure, ((admissible_exactly hlength hfit).2 _).mp hfailure⟩

end BlockProduction.Finality

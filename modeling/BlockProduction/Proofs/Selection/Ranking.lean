import BlockProduction.Proofs.Selection.Permanence
import BlockProduction.Proofs.Selection.Presentation

/-!
# Sorted snapshots

Fee rates are compared by cross multiplication, and hashes decide between equal
rates.  That is a total order as long as every package has a fee or a weight: a
rate over no weight stands above all others.  A package with neither is at the
same rate as every other package, so that its hash alone decides where it
stands, and two others may want it on the wrong side of both.  A snapshot is
sorted unless that happens, and where it happens no order is.
-/

namespace BlockProduction

/-! ## Rates -/

namespace Package

variable {p q r : Package}

/-- The fee rate is as high as the other one, or higher. -/
def Reaches (p q : Package) : Prop :=
  q.fee.toNat * p.weight.toNat ≤ p.fee.toNat * q.weight.toNat

/-- Without fee and weight there is no rate. -/
def Void (p : Package) : Prop :=
  p.fee = 0 ∧ p.weight = 0

instance : Decidable p.Void :=
  inferInstanceAs (Decidable (p.fee = 0 ∧ p.weight = 0))

theorem compareRate_eq_gt : p.compareRate q = .gt ↔ ¬q.Reaches p := by
  rw [compareRate, Nat.compare_eq_gt, Reaches, Nat.not_le]

theorem compareRate_eq_lt : p.compareRate q = .lt ↔ ¬p.Reaches q := by
  rw [compareRate, Nat.compare_eq_lt, Reaches, Nat.not_le]

theorem compareRate_eq_eq : p.compareRate q = .eq ↔ p.Reaches q ∧ q.Reaches p := by
  rw [compareRate, Nat.compare_eq_eq, Reaches, Reaches]
  omega

theorem reaches_total (p q : Package) : p.Reaches q ∨ q.Reaches p :=
  Nat.le_total _ _

theorem Void.reaches (h : p.Void) (q : Package) : p.Reaches q ∧ q.Reaches p := by
  simp [Reaches, h.1, h.2]

/-- Rates are compared across one that there is. -/
theorem Reaches.trans (hq : ¬q.Void) (hpq : p.Reaches q) (hqr : q.Reaches r) : p.Reaches r := by
  unfold Reaches at hpq hqr ⊢
  by_cases hweight : q.weight = 0
  · have hfee : q.fee.toNat ≠ 0 := by
      intro hzero
      exact hq ⟨UInt64.toNat_inj.mp hzero, hweight⟩
    rw [hweight, UInt64.toNat_zero, Nat.mul_zero, Nat.le_zero, Nat.mul_eq_zero] at hpq
    have hnone : p.weight.toNat = 0 := by omega
    rw [hnone, Nat.mul_zero]
    exact Nat.zero_le _
  · have hpos : 0 < q.weight.toNat :=
      Nat.pos_of_ne_zero fun hzero => hweight (UInt64.toNat_inj.mp hzero)
    refine Nat.le_of_mul_le_mul_right ?_ hpos
    calc r.fee.toNat * p.weight.toNat * q.weight.toNat
        = r.fee.toNat * q.weight.toNat * p.weight.toNat := by ring
      _ ≤ q.fee.toNat * r.weight.toNat * p.weight.toNat := Nat.mul_le_mul_right _ hqr
      _ = q.fee.toNat * p.weight.toNat * r.weight.toNat := by ring
      _ ≤ p.fee.toNat * q.weight.toNat * r.weight.toNat := Nat.mul_le_mul_right _ hpq
      _ = p.fee.toNat * r.weight.toNat * q.weight.toNat := by ring

end Package

/-! ## Places -/

namespace Snapshot

section Places

variable (packageOf : Candidate → Package) {txs : List Candidate}

/-- At a higher rate, or at the same rate and with the lower hash. -/
def Ahead (a b : Candidate) : Prop :=
  (packageOf a).compareRate (packageOf b) = .gt ∨
    (packageOf a).compareRate (packageOf b) = .eq ∧ a.hash.value.toNat < b.hash.value.toNat

/-- A candidate without a rate has a hash above that of one at a lower rate and below that of one
at a higher rate. -/
def Clashes (txs : List Candidate) : Prop :=
  ∃ high ∈ txs, ∃ low ∈ txs, ∃ void ∈ txs, (packageOf void).Void ∧
    (packageOf high).compareRate (packageOf low) = .gt ∧
    low.hash.value.toNat < void.hash.value.toNat ∧ void.hash.value.toNat < high.hash.value.toNat

instance : Decidable (Clashes packageOf txs) := by
  unfold Clashes
  infer_instance

variable {packageOf} {a b c : Candidate}

theorem ahead_iff : Ahead packageOf a b ↔ (packageOf a).Reaches (packageOf b) ∧
    ((packageOf b).Reaches (packageOf a) → a.hash.value.toNat < b.hash.value.toNat) := by
  have htotal := Package.reaches_total (packageOf a) (packageOf b)
  rw [Ahead, Package.compareRate_eq_gt, Package.compareRate_eq_eq]
  tauto

theorem Ahead.asymm (h : Ahead packageOf a b) : ¬Ahead packageOf b a := by
  intro hback
  rw [ahead_iff] at h hback
  have hab := h.2 hback.1
  have hba := hback.2 h.1
  omega

/-- The order of presentation puts a candidate before another one, or they are the same. -/
theorem precedes_iff : precedes (a, packageOf a) (b, packageOf b) = true ↔
    (packageOf a).Reaches (packageOf b) ∧
      ((packageOf b).Reaches (packageOf a) → a.hash.value.toNat ≤ b.hash.value.toNat) := by
  have htotal := Package.reaches_total (packageOf a) (packageOf b)
  unfold precedes
  cases hrate : (packageOf b).compareRate (packageOf a) with
  | lt =>
      have hback := Package.compareRate_eq_lt.mp hrate
      have hreaches := htotal.resolve_right hback
      simp [Ordering.then, hback, hreaches]
  | eq =>
      obtain ⟨hback, hreaches⟩ := Package.compareRate_eq_eq.mp hrate
      have hhash : (compare a.hash b.hash).isLE = true ↔
          a.hash.value.toNat ≤ b.hash.value.toNat := Nat.isLE_compare
      simp [Ordering.then, hback, hreaches, hhash]
  | gt =>
      have hreaches := Package.compareRate_eq_gt.mp hrate
      simp [Ordering.then, hreaches]

theorem precedes_total (a b : Candidate) :
    (precedes (a, packageOf a) (b, packageOf b) ||
      precedes (b, packageOf b) (a, packageOf a)) = true := by
  have htotal := Package.reaches_total (packageOf a) (packageOf b)
  have hhash := Nat.le_total a.hash.value.toNat b.hash.value.toNat
  rw [Bool.or_eq_true, precedes_iff, precedes_iff]
  tauto

section Sorted

variable (hdistinct : (txs.map (·.hash)).Nodup)
include hdistinct

theorem eq_of_hash_le (ha : a ∈ txs) (hb : b ∈ txs)
    (hab : a.hash.value.toNat ≤ b.hash.value.toNat)
    (hba : b.hash.value.toNat ≤ a.hash.value.toNat) : a = b :=
  List.inj_on_of_nodup_map hdistinct ha hb
    (Hash256.le_antisymm (Hash256.le_iff.mpr hab) (Hash256.le_iff.mpr hba))

/-- Candidates with different hashes that are in the order of presentation are each ahead of all
that come after it. -/
theorem pairwise_ahead {order : List Candidate} (hperm : order.Perm txs)
    (hsorted : order.Pairwise fun a b => precedes (a, packageOf a) (b, packageOf b) = true) :
    order.Pairwise (Ahead packageOf) := by
  have hhashes := List.pairwise_map.mp ((hperm.map Candidate.hash).nodup_iff.mpr hdistinct)
  refine (hsorted.and hhashes).imp fun {a b} h => ?_
  obtain ⟨hprecedes, hne⟩ := h
  obtain ⟨hreaches, hle⟩ := precedes_iff.mp hprecedes
  refine ahead_iff.mpr ⟨hreaches, fun hback => ?_⟩
  have hle := hle hback
  have hdiffer : a.hash.value.toNat ≠ b.hash.value.toNat := by
    intro heq
    exact hne (Hash256.le_antisymm (Hash256.le_iff.mpr heq.le) (Hash256.le_iff.mpr heq.ge))
  omega

variable (hclear : ¬Clashes packageOf txs)
include hclear

/-- A candidate without a rate does not stand between two others that its hash has in the wrong
order. -/
theorem outside_of_void (ha : a ∈ txs) (hb : b ∈ txs) (hc : c ∈ txs)
    (hvoid : (packageOf c).Void) (hbeats : ¬(packageOf b).Reaches (packageOf a)) :
    c.hash.value.toNat < b.hash.value.toNat ∨ a.hash.value.toNat < c.hash.value.toNat := by
  by_contra hbetween
  rw [not_or, Nat.not_lt, Nat.not_lt] at hbetween
  obtain ⟨hlow, hhigh⟩ := hbetween
  have hne : b ≠ c ∧ c ≠ a := by
    constructor
    · rintro rfl
      exact hbeats (hvoid.reaches _).1
    · rintro rfl
      exact hbeats (hvoid.reaches _).2
  have hlow' : b.hash.value.toNat < c.hash.value.toNat := by
    by_contra hback
    exact hne.1 (eq_of_hash_le hdistinct hb hc hlow (Nat.not_lt.mp hback))
  have hhigh' : c.hash.value.toNat < a.hash.value.toNat := by
    by_contra hback
    exact hne.2 (eq_of_hash_le hdistinct hc ha hhigh (Nat.not_lt.mp hback))
  exact hclear ⟨a, ha, b, hb, c, hc, hvoid, Package.compareRate_eq_gt.mpr hbeats, hlow', hhigh'⟩

theorem precedes_trans (ha : a ∈ txs) (hb : b ∈ txs) (hc : c ∈ txs)
    (hab : precedes (a, packageOf a) (b, packageOf b) = true)
    (hbc : precedes (b, packageOf b) (c, packageOf c) = true) :
    precedes (a, packageOf a) (c, packageOf c) = true := by
  rw [precedes_iff] at hab hbc ⊢
  by_cases hvoid : (packageOf b).Void
  · have hfirst := hab.2 (hvoid.reaches _).1
    have hsecond := hbc.2 (hvoid.reaches _).2
    constructor
    · by_contra hbeats
      have houtside := outside_of_void hdistinct hclear hc ha hb hvoid hbeats
      omega
    · intro _
      omega
  · refine ⟨hab.1.trans hvoid hbc.1, fun hback => ?_⟩
    by_cases hfirst : (packageOf a).Void
    · have hle := hab.2 (hfirst.reaches _).2
      by_cases hlast : (packageOf c).Reaches (packageOf b)
      · have hle' := hbc.2 hlast
        omega
      · have houtside := outside_of_void hdistinct hclear hb hc ha hfirst hlast
        omega
    · by_cases hlast : (packageOf c).Void
      · have hle := hbc.2 (hlast.reaches _).1
        by_cases hequal : (packageOf b).Reaches (packageOf a)
        · have hle' := hab.2 hequal
          omega
        · have houtside := outside_of_void hdistinct hclear ha hb hc hlast hequal
          omega
      · -- all three have a rate, and it is the same one
        have hle := hab.2 (hbc.1.trans hlast hback)
        have hle' := hbc.2 (hback.trans hfirst hab.1)
        omega

/-- Where nothing clashes, presentation is an order. -/
theorem orders_of_clear : Orders precedes (txs.map fun tx => (tx, packageOf tx)) where
  total := by
    intro x hx y hy
    obtain ⟨a, -, rfl⟩ := List.mem_map.mp hx
    obtain ⟨b, -, rfl⟩ := List.mem_map.mp hy
    exact precedes_total a b
  trans := by
    intro x hx y hy z hz hxy hyz
    obtain ⟨a, ha, rfl⟩ := List.mem_map.mp hx
    obtain ⟨b, hb, rfl⟩ := List.mem_map.mp hy
    obtain ⟨c, hc, rfl⟩ := List.mem_map.mp hz
    exact precedes_trans hdistinct hclear ha hb hc hxy hyz
  antisymm := by
    intro x hx y hy hxy hyx
    obtain ⟨a, ha, rfl⟩ := List.mem_map.mp hx
    obtain ⟨b, hb, rfl⟩ := List.mem_map.mp hy
    rw [precedes_iff] at hxy hyx
    rw [eq_of_hash_le hdistinct ha hb (hxy.2 hyx.1) (hyx.2 hxy.1)]

end Sorted

/-- Sorted lists go from one candidate to another that it is ahead of. -/
theorem lt_of_ahead {order : List Candidate} (h : order.Pairwise (Ahead packageOf)) {i j : Nat}
    (hi : i < order.length) (hj : j < order.length) (hahead : Ahead packageOf order[i] order[j]) :
    i < j := by
  by_contra hle
  by_cases heq : i = j
  · subst heq
    exact hahead.asymm hahead
  · exact hahead.asymm (List.pairwise_iff_getElem.mp h j i hj hi (by omega))

/-- Where candidates clash, none of their orders is sorted. -/
theorem Clashes.not_sorted (h : Clashes packageOf txs) {order : List Candidate}
    (hperm : order.Perm txs) : ¬order.Pairwise (Ahead packageOf) := by
  intro hsorted
  obtain ⟨high, hhigh, low, hlow, void, hvoid, hnone, hbeats, habove, hbelow⟩ := h
  obtain ⟨i, hi, rfl⟩ := List.getElem_of_mem (hperm.mem_iff.mpr hhigh)
  obtain ⟨j, hj, rfl⟩ := List.getElem_of_mem (hperm.mem_iff.mpr hlow)
  obtain ⟨k, hk, rfl⟩ := List.getElem_of_mem (hperm.mem_iff.mpr hvoid)
  have hfirst : i < j := lt_of_ahead hsorted hi hj (.inl hbeats)
  have hsecond : j < k := lt_of_ahead hsorted hj hk
    (.inr ⟨Package.compareRate_eq_eq.mpr (hnone.reaches _).symm, habove⟩)
  have hthird : k < i := lt_of_ahead hsorted hk hi
    (.inr ⟨Package.compareRate_eq_eq.mpr (hnone.reaches _), hbelow⟩)
  omega

end Places

end Snapshot

/-! ## Packages with all ancestors -/

theorem satAdd_eq_zero {a b : UInt64} : satAdd a b = 0 ↔ a = 0 ∧ b = 0 := by
  rw [← UInt64.toNat_inj, ← UInt64.toNat_inj, ← UInt64.toNat_inj, satAdd_toNat, UInt64.toNat_zero]
  have hpos : 0 < maxWord := by decide
  omega

namespace Package

theorem empty_add (tx : Candidate) : empty.add tx = .single tx := by
  have hzero : ∀ a : UInt64, satAdd 0 a = a := by
    intro a
    have hle := toNat_le_maxWord a
    rw [← UInt64.toNat_inj, satAdd_toNat, UInt64.toNat_zero]
    omega
  simp [add, empty, single, hzero]

theorem void_foldl_add {p : Package} {txs : List Candidate} :
    (txs.foldl add p).Void ↔ p.Void ∧ ∀ tx ∈ txs, tx.fee = 0 ∧ tx.weight = 0 := by
  induction txs generalizing p with
  | nil => simp
  | cons tx txs ih =>
      have hadd : (p.add tx).Void ↔ p.Void ∧ tx.fee = 0 ∧ tx.weight = 0 := by
        simp only [Void, add, satAdd_eq_zero]
        tauto
      rw [List.foldl_cons, ih, hadd, List.forall_mem_cons, and_assoc]

/-- Only transactions without fee and weight make a package without both. -/
theorem void_ofTxs {txs : List Candidate} :
    (ofTxs txs).Void ↔ ∀ tx ∈ txs, tx.fee = 0 ∧ tx.weight = 0 := by
  rw [ofTxs, void_foldl_add]
  exact and_iff_right ⟨rfl, rfl⟩

end Package

namespace Snapshot

variable {txs : List Candidate} {s : Snapshot}

/-- The package of a candidate and everything that it depends on. -/
def packageOf (s : Snapshot) (tx : Candidate) : Package :=
  .ofTxs (s.view.remainder [] tx.hash)

/-- The candidates whose hashes a list names. -/
def named (txs : List Candidate) (hashes : List Hash256) : List Candidate :=
  hashes.filterMap fun h => txs.find? fun other => other.hash = h

theorem hash_of_find? {h : Hash256} {tx : Candidate}
    (hfound : txs.find? (fun other => other.hash = h) = some tx) : tx.hash = h := by
  simpa using List.find?_some hfound

theorem mem_named (hdistinct : (txs.map (·.hash)).Nodup) {hashes : List Hash256} {tx : Candidate} :
    tx ∈ named txs hashes ↔ tx ∈ txs ∧ tx.hash ∈ hashes := by
  rw [named, List.mem_filterMap]
  constructor
  · rintro ⟨h, hh, hfound⟩
    have hhash := hash_of_find? hfound
    rw [← hhash] at hh
    exact ⟨List.mem_of_find?_eq_some hfound, hh⟩
  · rintro ⟨htx, hh⟩
    exact ⟨tx.hash, hh, find?_hash_eq_some hdistinct htx⟩

theorem nodup_named {hashes : List Hash256} (h : hashes.Nodup) : (named txs hashes).Nodup := by
  refine h.filterMap fun first second tx hfirst hsecond => ?_
  rw [← hash_of_find? hfirst, ← hash_of_find? hsecond]

section PackageOf

variable (hdistinct : (txs.map (·.hash)).Nodup) (hacyclic : ∀ h, ¬DependsOn txs h h)
  (hperm : s.candidates.Perm txs) {tx : Candidate} (htx : tx ∈ txs)
include hdistinct hacyclic hperm htx

/-- What remains of a package outside an empty block is what the table of ancestors names. -/
theorem remainder_perm_named {related : List Hash256}
    (hrelated : s.view.ancestors? tx.hash = some related) (hnodup : related.Nodup)
    (hiff : ∀ a, a ∈ related ↔ DependsOn txs tx.hash a) :
    (s.view.remainder [] tx.hash).Perm (tx :: named txs related) := by
  have hselected : (s.view.remainder [] tx.hash).Nodup :=
    (hperm.nodup_iff.mpr (List.Nodup.of_map _ hdistinct)).filter _
  have hself : tx ∉ named txs related := by
    rw [mem_named hdistinct, hiff]
    exact fun hmem => hacyclic tx.hash hmem.2
  have hlisted : (tx :: named txs related).Nodup := List.nodup_cons.mpr ⟨hself, nodup_named hnodup⟩
  refine (List.perm_ext_iff_of_nodup hselected hlisted).mpr fun other => ?_
  have hancestors : s.view.ancestorsOf tx.hash = related := by
    rw [PoolView.ancestorsOf, hrelated, Option.getD_some]
  have hcandidates : other ∈ s.view.candidates ↔ other ∈ txs := hperm.mem_iff
  rw [List.mem_cons, mem_named hdistinct, PoolView.remainder, List.mem_filter, hancestors,
    hcandidates]
  by_cases hother : other ∈ txs
  · have hsame : other.hash = tx.hash ↔ other = tx :=
      ⟨List.inj_on_of_nodup_map hdistinct hother htx, congrArg Candidate.hash⟩
    simp [hother, hsame]
  · have hne : other ≠ tx := fun heq => hother (heq ▸ htx)
    simp [hother, hne]

theorem fullPackage_eq_packageOf (hshows : s.Shows txs) :
    fullPackage txs s.ancestors tx = s.packageOf tx := by
  obtain ⟨related, hrelated, hincreasing, hiff⟩ :=
    hshows.ancestors tx.hash (List.mem_map_of_mem htx)
  have hremainder :=
    remainder_perm_named hdistinct hacyclic hperm htx hrelated hincreasing.nodup hiff
  have hlookup : s.ancestors.lookup tx.hash = some related := hrelated
  rw [packageOf, Package.ofTxs_perm hremainder, Package.ofTxs, List.foldl_cons,
    Package.empty_add, named, List.foldl_filterMap, fullPackage, hlookup, Option.getD_some]
  refine congrArg (fun step => related.foldl step (Package.single tx)) ?_
  funext p h
  cases txs.find? fun other => other.hash = h <;> rfl

end PackageOf

/-- Every candidate is sorted by its package with everything that it depends on. -/
theorem entries_eq (hdistinct : (txs.map (·.hash)).Nodup) (hacyclic : ∀ h, ¬DependsOn txs h h)
    (hperm : s.candidates.Perm txs) (hshows : s.Shows txs) :
    s.entries txs = txs.map fun tx => (tx, s.packageOf tx) := by
  refine List.map_congr_left fun tx htx => ?_
  rw [fullPackage_eq_packageOf hdistinct hacyclic hperm htx hshows]

/-- Only a candidate without fee and weight has a package without both. -/
theorem Clashes.exists_void (hperm : s.candidates.Perm txs) (h : Clashes s.packageOf txs) :
    ∃ tx ∈ txs, tx.fee = 0 ∧ tx.weight = 0 := by
  obtain ⟨_, _, _, _, void, hvoid, hnone, -⟩ := h
  have hself : void ∈ s.view.remainder [] void.hash :=
    List.mem_filter.mpr ⟨hperm.mem_iff.mpr hvoid, by simp⟩
  exact ⟨void, hvoid, Package.void_ofTxs.mp hnone void hself⟩

/-- The candidates of a snapshot are those of the list, each ahead of all that come after it,
unless some of them clash.  That takes one without fee and weight, and then they stand in no
such order at all. -/
theorem sorts {sorter : Sorter (Candidate × Package)} (hs : ofCandidates sorter txs = some (.ok s)) :
    s.candidates.Perm txs ∧
    (¬Clashes s.packageOf txs → s.candidates.Pairwise (Ahead s.packageOf)) ∧
    (Clashes s.packageOf txs → (∃ tx ∈ txs, tx.fee = 0 ∧ tx.weight = 0) ∧
      ∀ order : List Candidate, order.Perm txs → ¬order.Pairwise (Ahead s.packageOf)) := by
  obtain ⟨hdistinct, hacyclic, ⟨closed, hbuilt⟩, hshows⟩ := built_of_ofCandidates hs
  have hperm := hbuilt.candidates_perm
  refine ⟨hperm, fun hclear => ?_, fun hclash => ⟨hclash.exists_void hperm, fun order horder => ?_⟩⟩
  · obtain ⟨sorted, hcandidates, hsorted, hpairwise⟩ := hbuilt.presented
    rw [entries_eq hdistinct hacyclic hperm hshows] at hsorted hpairwise
    -- every entry has the package of its candidate
    have hentries : sorted = s.candidates.map fun tx => (tx, s.packageOf tx) := by
      rw [hcandidates, List.map_map]
      refine (List.map_id sorted).symm.trans (List.map_congr_left fun entry hentry => ?_)
      obtain ⟨tx, -, rfl⟩ := List.mem_map.mp (hsorted.mem_iff.mp hentry)
      rfl
    have hpairwise := hpairwise (orders_of_clear hdistinct hclear)
    rw [hentries, List.pairwise_map] at hpairwise
    exact pairwise_ahead hdistinct hperm hpairwise
  · exact hclash.not_sorted horder

theorem sorts_diamond : ∃ s, ofCandidates .bothEnds diamond = some (.ok s) ∧
    s.candidates.Pairwise (Ahead s.packageOf) := by
  have haccepted : ∃ s, ofCandidates .bothEnds diamond = some (.ok s) := ⟨_, by cbv⟩
  obtain ⟨s, hs⟩ := haccepted
  obtain ⟨-, hsorted, hvoid⟩ := sorts hs
  refine ⟨s, hs, hsorted fun hclash => ?_⟩
  have hweights : ∀ tx ∈ diamond, tx.weight ≠ 0 := by decide
  obtain ⟨⟨tx, htx, -, hweight⟩, -⟩ := hvoid hclash
  exact hweights tx htx hweight

def paying (h : Nat) (fee weight : UInt64) : Candidate :=
  ⟨⟨h⟩, 2, fee, weight, 4, [], 0, false⟩

/-- One of three candidates has neither fee nor weight, and its hash stands between those of the
others. -/
theorem clashing_not_sorted :
    let clashing := [paying 3 5 1000, paying 1 1 1000, paying 2 0 0]
    ∃ s, ofCandidates .bothEnds clashing = some (.ok s) ∧
      ∀ order : List Candidate, order.Perm clashing → ¬order.Pairwise (Ahead s.packageOf) := by
  intro clashing
  let rows : List (Hash256 × List Hash256) := [(⟨1⟩, []), (⟨2⟩, []), (⟨3⟩, [])]
  let s : Snapshot := ⟨[paying 2 0 0, paying 3 5 1000, paying 1 1 1000], rows, rows⟩
  have hs : ofCandidates .bothEnds clashing = some (.ok s) := by cbv
  have hclash : Clashes s.packageOf clashing := by decide
  exact ⟨_, hs, fun order hperm => hclash.not_sorted hperm⟩

end Snapshot

end BlockProduction

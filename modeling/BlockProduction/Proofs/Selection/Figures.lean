import BlockProduction.Block.Template
import BlockProduction.Proofs.Pool.Consistency

/-!
# Figures of packages

A package is summed up in three figures that behave alike: its fee, its weight
and its signature-operation cost.  Each is stated through exact sums over the
transactions: what is added stays at the largest word, and what is taken out
again is taken from there.
-/

namespace BlockProduction

/-- What is summed over the transactions of a package. -/
inductive Figure where
  | fee
  | weight
  | sigopCost
  deriving DecidableEq

namespace Figure

/-- The figure of a transaction. -/
def ofTx : Figure → Candidate → UInt64
  | fee, tx => tx.fee
  | weight, tx => tx.weight
  | sigopCost, tx => tx.sigopCost

/-- The figure of a package. -/
def ofPackage : Figure → Package → UInt64
  | fee, p => p.fee
  | weight, p => p.weight
  | sigopCost, p => p.sigopCost

/-- The figure of a block under construction. -/
def ofUsage : Figure → Usage → UInt64
  | fee, usage => usage.fees
  | weight, usage => usage.weight
  | sigopCost, usage => usage.sigopCost

/-- What is kept free for the coinbase. -/
def reserved : Figure → Reservation → UInt64
  | fee, _ => 0
  | weight, reservation => reservation.weight
  | sigopCost, reservation => reservation.sigopCost

variable (f : Figure)

@[simp] theorem ofPackage_empty : f.ofPackage .empty = 0 := by
  cases f <;> rfl

@[simp] theorem ofPackage_single (tx : Candidate) : f.ofPackage (.single tx) = f.ofTx tx := by
  cases f <;> rfl

@[simp] theorem ofPackage_add (p : Package) (tx : Candidate) :
    f.ofPackage (p.add tx) = satAdd (f.ofPackage p) (f.ofTx tx) := by
  cases f <;> rfl

@[simp] theorem ofPackage_remove (p : Package) (tx : Candidate) :
    f.ofPackage (p.remove tx) = satSub (f.ofPackage p) (f.ofTx tx) := by
  cases f <;> rfl

@[simp] theorem ofUsage_commit (usage : Usage) (p : Package) :
    f.ofUsage (usage.commit p) = satAdd (f.ofUsage usage) (f.ofPackage p) := by
  cases f <;> rfl

theorem usage_ext {a b : Usage} (h : ∀ f : Figure, f.ofUsage a = f.ofUsage b) : a = b := by
  obtain ⟨weight, sigopCost, fees⟩ := a
  have hweight := h .weight
  have hsigop := h .sigopCost
  have hfee := h .fee
  simp only [ofUsage] at hweight hsigop hfee
  rw [hweight, hsigop, hfee]

end Figure

theorem toNat_le_maxWord (a : UInt64) : a.toNat ≤ maxWord := by
  have hlt := a.toNat_lt
  simp only [maxWord]
  omega

/-- The check of a package depends on its figures only. -/
theorem Limits.check_congr {limits : Limits} {usage : Usage} {p q : Package}
    (h : ∀ f : Figure, f.ofPackage p = f.ofPackage q) :
    limits.check usage p = limits.check usage q := by
  have hfee : p.fee = q.fee := h .fee
  have hweight : p.weight = q.weight := h .weight
  have hsigop : p.sigopCost = q.sigopCost := h .sigopCost
  simp only [check, shortfall?, excess?, hfee, hweight, hsigop]

namespace CandidateGraph

variable {g : CandidateGraph}

/-- The exact sum of a figure over candidates. -/
def total (g : CandidateGraph) (f : Figure) (ids : List (Fin g.size)) : Nat :=
  (ids.map fun id => (f.ofTx (g.tx id)).toNat).sum

@[simp] theorem total_nil (f : Figure) : g.total f [] = 0 := rfl

@[simp] theorem total_cons (f : Figure) (id : Fin g.size) (ids : List (Fin g.size)) :
    g.total f (id :: ids) = (f.ofTx (g.tx id)).toNat + g.total f ids := rfl

@[simp] theorem total_append (f : Figure) (ids others : List (Fin g.size)) :
    g.total f (ids ++ others) = g.total f ids + g.total f others := by
  simp [total]

theorem total_perm {f : Figure} {ids others : List (Fin g.size)} (h : ids.Perm others) :
    g.total f ids = g.total f others :=
  (h.map _).sum_eq

theorem total_le_of_subperm {f : Figure} {ids others : List (Fin g.size)} (h : ids.Subperm others) :
    g.total f ids ≤ g.total f others := by
  obtain ⟨same, hperm, hsub⟩ := h
  rw [← total_perm hperm]
  exact (hsub.map _).sum_le_sum (by simp)

theorem total_le_of_subset {f : Figure} {ids others : List (Fin g.size)} (hnodup : ids.Nodup)
    (h : ids ⊆ others) : g.total f ids ≤ g.total f others :=
  total_le_of_subperm (List.subperm_of_subset hnodup h)

theorem total_filter_add (f : Figure) (p : Fin g.size → Bool) (ids : List (Fin g.size)) :
    g.total f (ids.filter p) + g.total f (ids.filter fun id => !p id) = g.total f ids := by
  rw [← total_append]
  exact total_perm (List.filter_append_perm p ids)

/-- The candidates of a view are summed up in any order. -/
theorem Represents.total_ids {view : PoolView}
    (h : g.Represents view) (f : Figure) :
    g.total f g.ids = (view.candidates.map fun tx => (f.ofTx tx).toNat).sum := by
  rw [← (h.candidates_perm.map fun tx => (f.ofTx tx).toNat).sum_eq, List.map_map]
  rfl

/-! ## Adding up and taking out -/

theorem toNat_foldl_add (f : Figure) (ids : List (Fin g.size)) (p : Package) :
    (f.ofPackage (ids.foldl (fun p a => p.add (g.tx a)) p)).toNat =
      min ((f.ofPackage p).toNat + g.total f ids) maxWord := by
  induction ids generalizing p with
  | nil =>
      have hle := toNat_le_maxWord (f.ofPackage p)
      simp only [List.foldl_nil, total_nil]
      omega
  | cons id ids ih =>
      rw [List.foldl_cons, ih, Figure.ofPackage_add, satAdd_toNat, total_cons]
      omega

theorem toNat_foldl_remove (f : Figure) (ids : List (Fin g.size)) (p : Package) :
    (f.ofPackage (ids.foldl (fun p a => p.remove (g.tx a)) p)).toNat =
      (f.ofPackage p).toNat - g.total f ids := by
  induction ids generalizing p with
  | nil => simp
  | cons id ids ih =>
      rw [List.foldl_cons, ih, Figure.ofPackage_remove, satSub_toNat, total_cons]
      omega

theorem toNat_fullPackage (f : Figure) (id : Fin g.size) :
    (f.ofPackage (g.fullPackage id)).toNat = min (g.total f (id :: g.ancestorsOf id)) maxWord := by
  rw [fullPackage, toNat_foldl_add, Figure.ofPackage_single, total_cons]

end CandidateGraph

end BlockProduction

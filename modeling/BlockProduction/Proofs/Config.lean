import BlockProduction.Config
import Mathlib

/-!
# Valid configurations

A configuration is accepted exactly if it is within the limits of consensus and
leaves room for transactions, candidates and workers.
-/

namespace BlockProduction.Config

variable {config : Config}

/-- What an accepted configuration promises. -/
structure Valid (config : Config) : Prop where
  weight_le : config.selector.maxBlockWeight ≤ BlockProduction.maxBlockWeight
  reserved_weight_lt : config.selector.coinbaseReservedWeight < config.selector.maxBlockWeight
  sigops_le : config.selector.maxBlockSigopsCost ≤ maxBlockSigopCost
  reserved_sigops_lt : config.selector.coinbaseReservedSigops < config.selector.maxBlockSigopsCost
  considered_ne_zero : config.selector.maxCandidatesConsidered ≠ 0
  workers_ne_zero : config.mining.workers ≠ 0
  powLimit_ne_zero : config.consensus.powLimit ≠ 0
  halvingInterval_ne_zero : config.consensus.halvingInterval ≠ 0

theorem ite_some_eq_none_iff {α : Type} {c : Prop} [Decidable c] {x : α} {rest : Option α} :
    (if c then some x else rest) = none ↔ ¬c ∧ rest = none := by
  by_cases h : c
  · simp [h]
  · simp [h]

theorem fault?_eq_none_iff : config.fault? = none ↔ config.Valid := by
  simp only [fault?, ite_some_eq_none_iff, not_or, UInt64.not_lt, UInt64.not_le, and_true]
  constructor
  · rintro ⟨hweight, hreserved, ⟨hsigops, hkept⟩, hconsidered, hworkers, hlimit, hinterval⟩
    exact ⟨hweight, hreserved, hsigops, hkept, hconsidered, hworkers, hlimit, hinterval⟩
  · intro h
    exact ⟨h.weight_le, h.reserved_weight_lt, ⟨h.sigops_le, h.reserved_sigops_lt⟩,
      h.considered_ne_zero, h.workers_ne_zero, h.powLimit_ne_zero, h.halvingInterval_ne_zero⟩

theorem validate_eq_ok_iff : config.validate = .ok () ↔ config.Valid := by
  rw [← fault?_eq_none_iff]
  unfold validate
  cases config.fault? with
  | none => simp
  | some fault => simp

end BlockProduction.Config

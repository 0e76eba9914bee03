import BlockProduction.Transaction

/-!
# Packages

A package is a candidate with some of its ancestors; only its sums matter.
Sums stay at the ends of the 64-bit range.
-/

namespace BlockProduction

structure Package where
  fee : UInt64
  weight : UInt64
  sigopCost : UInt64
  count : UInt32
  deriving DecidableEq, Inhabited

namespace Package

def empty : Package :=
  ⟨0, 0, 0, 0⟩

def single (tx : Candidate) : Package :=
  ⟨tx.fee, tx.weight, tx.sigopCost, 1⟩

def add (p : Package) (tx : Candidate) : Package :=
  { fee := satAdd p.fee tx.fee
    weight := satAdd p.weight tx.weight
    sigopCost := satAdd p.sigopCost tx.sigopCost
    count := p.count + 1 }

def remove (p : Package) (tx : Candidate) : Package :=
  { fee := satSub p.fee tx.fee
    weight := satSub p.weight tx.weight
    sigopCost := satSub p.sigopCost tx.sigopCost
    count := if p.count = 0 then 0 else p.count - 1 }

def feeRate (p : Package) : FeeRate :=
  FeeRate.ofFee p.fee p.weight

/-- The exact comparison of fee over weight, without division. -/
def compareRate (p q : Package) : Ordering :=
  compare (p.fee.toNat * q.weight.toNat) (q.fee.toNat * p.weight.toNat)

end Package

end BlockProduction

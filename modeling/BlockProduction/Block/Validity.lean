import BlockProduction.Block.Template

/-!
# Validity of templates

Five rules hold of every template that goes to the search: it keeps the limits,
no transaction stands in it twice, no transaction stands before one that it
spends, the coinbase pays exactly the subsidy and the fees, and the header
commits to all transactions.
-/

namespace BlockProduction.Template

def checkLimits (t : Template) (limits : Limits) : Except Error Unit :=
  if limits.maxWeight < t.totalWeight ∨ limits.maxSigopCost < t.totalSigopCost then
    .error (.overBudget t.totalWeight limits.maxWeight t.totalSigopCost limits.maxSigopCost)
  else .ok ()

/-- The first hash that stands in a list for a second time. -/
def firstRepeated? : (seen : List Hash256) → List Hash256 → Option Hash256
  | _, [] => none
  | seen, h :: rest => if seen.contains h then some h else firstRepeated? (h :: seen) rest

def checkDistinct (t : Template) : Except Error Unit :=
  match firstRepeated? [] t.selectedHashes with
  | some h => .error (.duplicate h)
  | none => .ok ()

/-- The first transaction, with the hash that it spends, that does not stand
behind every transaction of that hash. -/
def firstMisordered? : List Candidate → Option (Hash256 × Hash256)
  | [] => none
  | tx :: rest =>
      let later := tx :: rest
      match tx.inputs.find? fun input => later.any fun other => other.hash = input.prevout.hash with
      | some input => some (tx.hash, input.prevout.hash)
      | none => firstMisordered? rest

/-- Every transaction stands behind the transactions that it spends. -/
def checkOrder (t : Template) : Except Error Unit :=
  match firstMisordered? t.transactions with
  | some (child, ancestor) => .error (.misordered child ancestor)
  | none => .ok ()

/-- The sum of the fees, if it fits into a word. -/
def feeSum? (t : Template) : Option UInt64 :=
  t.transactions.foldlM (fun sum tx => addChecked sum tx.fee) 0

/-- The coinbase pays the subsidy and the fees, and the fees are the declared ones. -/
def checkCoinbase (t : Template) (halvingInterval : UInt32) : Except Error Unit :=
  match t.feeSum? with
  | none => .error (.internal .feeSumOverflow)
  | some fees =>
      match addChecked (blockSubsidy t.height halvingInterval) fees with
      | none => .error (.internal .coinbaseValueOverflow)
      | some expected =>
          if t.coinbase.value ≠ expected ∨ t.totalFees ≠ fees then
            .error (.coinbaseMismatch expected t.coinbase.value)
          else .ok ()

/-- The header commits to the coinbase and the transactions. -/
def checkMerkleRoot (t : Template) : Except Error Unit :=
  let computed := Merkle.root t.orderedHashes
  if computed ≠ t.header.merkleRoot then
    .error (.internal (.merkleMismatch t.header.merkleRoot computed))
  else .ok ()

/-- All rules; the first that is broken is named. -/
def validate (t : Template) (limits : Limits) (halvingInterval : UInt32) : Except Error Unit := do
  t.checkLimits limits
  t.checkDistinct
  t.checkOrder
  t.checkCoinbase halvingInterval
  t.checkMerkleRoot

end BlockProduction.Template

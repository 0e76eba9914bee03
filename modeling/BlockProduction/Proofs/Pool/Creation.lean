import BlockProduction.Proofs.Selection.Ranking

/-!
# What becomes of a list of candidates

A list with a hash that stands twice is refused, and so is one in which a chain
of spends leads back to where it starts.  Of any other list a snapshot is made
that shows all chains of spends, unless the sort gives up.  It may do so only
where candidates clash, which takes one without fee and weight.
-/

namespace BlockProduction.Snapshot

variable {txs : List Candidate}

end BlockProduction.Snapshot

import BlockProduction.Block.Coinbase
import BlockProduction.Block.Header
import BlockProduction.Block.Subsidy
import BlockProduction.Hash.Merkle
import BlockProduction.Limits
import BlockProduction.Error

/-!
# Block templates

A draft collects transactions on top of a chain context.  Finalizing it fills
in the coinbase and the merkle root; the result is a template whose header
lacks only the proof of work.
-/

namespace BlockProduction

/-- Weight and signature-operation cost that are kept free for the coinbase. -/
structure Reservation where
  weight : UInt64
  sigopCost : UInt64
  deriving DecidableEq

/-- The reservation that is used unless another is asked for. -/
instance : Inhabited Reservation := ⟨⟨4000, 400⟩⟩

/-- What the coinbase and the header need beyond the draft. -/
structure CoinbaseTerms where
  blockVersion : Int32
  payoutScript : Bytes
  extraNonce : UInt32
  halvingInterval : UInt32
  deriving DecidableEq

/-- The number of blocks between halvings that is used unless another is asked for. -/
def defaultHalvingInterval : UInt32 := 210000

instance : Inhabited CoinbaseTerms := ⟨⟨4, [], 0, defaultHalvingInterval⟩⟩

/-- A block that is ready for the search for proof of work. -/
structure Template where
  header : Header
  height : UInt32
  coinbase : Coinbase
  /-- The part of the coinbase value that is not fees. -/
  subsidy : UInt64
  /-- The transactions in block order, without the coinbase. -/
  transactions : List Candidate
  totalWeight : UInt64
  totalSigopCost : UInt64
  totalFees : UInt64
  deriving DecidableEq, Inhabited

namespace Template

/-- The hashes of the transactions in block order, without the coinbase. -/
def selectedHashes (t : Template) : List Hash256 :=
  t.transactions.map (·.hash)

/-- The hashes of all transactions in block order. -/
def orderedHashes (t : Template) : List Hash256 :=
  t.coinbase.hash :: t.selectedHashes

/-- The number of transactions, the coinbase included. -/
def transactionCount (t : Template) : Nat :=
  t.transactions.length + 1

end Template

structure Draft where
  context : RoundContext
  reservation : Reservation
  /-- The transactions in block order. -/
  transactions : List Candidate
  usage : Usage
  deriving Inhabited

namespace Draft

/-- A block without transactions; the reservation counts as used. -/
def start (context : RoundContext) (reservation : Reservation) : Draft :=
  { context, reservation
    transactions := []
    usage := ⟨reservation.weight, reservation.sigopCost, 0⟩ }

def hashes (draft : Draft) : List Hash256 :=
  draft.transactions.map (·.hash)

def contains (draft : Draft) (hash : Hash256) : Bool :=
  draft.transactions.any fun tx => tx.hash = hash

/-- Append a transaction; one that is in the block already is refused. -/
def push (draft : Draft) (tx : Candidate) : Except Error Draft :=
  if draft.contains tx.hash then .error (.duplicate tx.hash)
  else .ok { draft with transactions := draft.transactions ++ [tx] }

def pushAll (draft : Draft) (txs : List Candidate) : Except Error Draft :=
  txs.foldlM push draft

def commit (draft : Draft) (p : Package) : Draft :=
  { draft with usage := draft.usage.commit p }

/-- The time of a header: the nearest time that fits into 32 bits. -/
def headerTime (time : Int64) : UInt32 :=
  UInt32.ofNat (min time.toInt.toNat 0xffffffff)

/-- The template of a draft: the coinbase pays the subsidy and the fees, and
the header commits to the coinbase and the transactions. -/
def finalize (draft : Draft) (terms : CoinbaseTerms) : Except Error Template :=
  let height := draft.context.targetHeight
  let subsidy := blockSubsidy height terms.halvingInterval
  match addChecked subsidy draft.usage.fees with
  | none => .error (.internal (.coinbaseOverflow subsidy draft.usage.fees))
  | some value =>
      let coinbase : Coinbase :=
        { height, value
          payoutScript := terms.payoutScript
          extraNonce := terms.extraNonce }
      let header : Header :=
        { version := terms.blockVersion
          prevHash := draft.context.tip.hash
          merkleRoot := Merkle.root (coinbase.hash :: draft.hashes)
          reserved := Hash256.zero
          time := headerTime draft.context.blockTime
          bits := draft.context.tip.nextBits
          nonce := Hash256.zero
          solution := [] }
      .ok
        { header, height, coinbase, subsidy
          transactions := draft.transactions
          totalWeight := draft.usage.weight
          totalSigopCost := draft.usage.sigopCost
          totalFees := draft.usage.fees }

end Draft

end BlockProduction

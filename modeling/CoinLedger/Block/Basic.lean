import CoinLedger.Block.MerkleTree
import CoinLedger.Transaction.Check

/-! Blocks: a header that commits to a list of transactions, and the rules for a block by itself. -/
namespace CoinLedger

structure Header where
  previous : Hash
  root : Hash
  time : UInt64
  nonce : UInt64
deriving DecidableEq

namespace Header

def encode (header : Header) : Bytes :=
  header.previous.bytes ++ header.root.bytes ++ littleEndian 8 header.time.toNat
    ++ littleEndian 8 header.nonce.toNat

theorem length_encode (header : Header) : header.encode.length = 80 := by
  simp [encode, header.previous.length_bytes, header.root.length_bytes, length_littleEndian]

def hash (header : Header) : Hash :=
  doubleSha256 header.encode

end Header

structure Block where
  header : Header
  transactions : List Transaction
deriving DecidableEq

/-- The leaf of a transaction in the Merkle tree: one digest of its byte form, and so not its id. -/
def Transaction.leaf (tx : Transaction) : Hash :=
  sha256 tx.encode

def transactionRoot? (transactions : List Transaction) : Option Hash :=
  merkleRoot? (transactions.map (·.leaf))

/-- The rules for each transaction by itself, up to the first that breaks one. -/
def checkTransactions : List Transaction → Verdict
  | [] => .valid
  | tx :: rest =>
    match tx.check with
    | .invalid reason => .invalid reason
    | .valid => checkTransactions rest

/-- The first transaction is the only coinbase. -/
def checkCoinbase : List Transaction → Verdict
  | [] => .invalid .coinbaseMissing
  | first :: rest =>
    if !first.isCoinbase then .invalid .coinbaseMissing
    else if rest.any (·.isCoinbase) then .invalid .coinbaseMultiple
    else .valid

/-- There are transactions, the header commits to them, the first is the only coinbase, and each
is sound by itself. -/
def Block.check (block : Block) : Verdict :=
  match transactionRoot? block.transactions with
  | none => .invalid .coinbaseMissing
  | some root =>
    if root ≠ block.header.root then .invalid .badMerkleRoot
    else
      match checkCoinbase block.transactions with
      | .invalid reason => .invalid reason
      | .valid => checkTransactions block.transactions

end CoinLedger

import CoinLedger.Money
import CoinLedger.Script.Opcode

/-! Transactions: a coinbase makes coins, a spend turns coins into new ones. A transaction is named
by the double digest of its byte form. -/
namespace CoinLedger
open Std

/-- The place of an output: the transaction that makes it and its position there. -/
@[ext]
structure OutPoint where
  txid : Hash
  index : UInt32
deriving DecidableEq

namespace OutPoint

instance : Ord OutPoint := ⟨compareLex (compareOn txid) (compareOn index)⟩

instance : TransOrd OutPoint := inferInstanceAs <| TransCmp (compareLex _ _)

instance : LawfulEqOrd OutPoint where
  eq_of_compare h := by
    have h := compareLex_eq_eq.mp h
    exact OutPoint.ext (LawfulEqOrd.eq_of_compare h.1) (LawfulEqOrd.eq_of_compare h.2)

def encode (point : OutPoint) : Bytes :=
  point.txid.bytes ++ littleEndian 4 point.index.toNat

end OutPoint

/-- What a spender brings to open a lock. -/
structure Unlock where
  signature : Bytes
  publicKey : Bytes
deriving DecidableEq

namespace Unlock

def empty : Unlock := ⟨[], []⟩

def script (unlock : Unlock) : Script :=
  [.push unlock.signature, .push unlock.publicKey]

def encode (unlock : Unlock) : Bytes :=
  sizedBytes unlock.signature ++ sizedBytes unlock.publicKey

end Unlock

structure Input where
  prevout : OutPoint
  unlock : Unlock
deriving DecidableEq

def Input.encode (input : Input) : Bytes :=
  input.prevout.encode ++ input.unlock.encode

structure Output where
  value : Amount
  lock : Script
deriving DecidableEq

def Output.encode (output : Output) : Bytes :=
  littleEndian 8 output.value.toUInt64.toNat ++ Script.encode output.lock

inductive Transaction where
  | coinbase (outputs : List Output)
  | spend (inputs : List Input) (outputs : List Output)
deriving DecidableEq

namespace Transaction

def isCoinbase : Transaction → Bool
  | coinbase _ => true
  | spend _ _ => false

def inputs : Transaction → List Input
  | coinbase _ => []
  | spend inputs _ => inputs

def outputs : Transaction → List Output
  | coinbase outputs => outputs
  | spend _ outputs => outputs

/-- The places of the coins that a transaction spends. -/
def prevouts (tx : Transaction) : List OutPoint :=
  tx.inputs.map (·.prevout)

def encode : Transaction → Bytes
  | coinbase outputs => 0x00 :: sizedList Output.encode outputs
  | spend inputs outputs =>
    0x01 :: (sizedList Input.encode inputs ++ sizedList Output.encode outputs)

def id (tx : Transaction) : Hash :=
  doubleSha256 tx.encode

/-- The transaction without what unlocks its inputs. -/
def blank : Transaction → Transaction
  | coinbase outputs => coinbase outputs
  | spend inputs outputs => spend (inputs.map fun input => ⟨input.prevout, .empty⟩) outputs

/-- What the signatures of a transaction cover. -/
def signatureHash (tx : Transaction) : Hash :=
  tx.blank.id

/-- The sum of the outputs, if no partial sum leaves the money range. -/
def valueOut (tx : Transaction) : Option Amount :=
  sumMoney (tx.outputs.map (·.value))

end Transaction
end CoinLedger

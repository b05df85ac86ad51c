import CoinLedger.Transaction.Basic
import Std.Data.ExtTreeMap

/-! Coins, and finite maps from their places to them. Two such maps are equal if they hold the same
coins, and they list their coins in the order of the places. -/
namespace CoinLedger
open Std

structure Coin where
  output : Output
  isCoinbase : Bool
  spent : Bool
deriving DecidableEq

def Coin.value (coin : Coin) : Amount := coin.output.value

abbrev CoinMap := ExtTreeMap OutPoint Coin

theorem CoinMap.pairwise_toList (coins : CoinMap) :
    coins.toList.Pairwise fun a b => a.1 ≠ b.1 :=
  coins.distinct_keys_toList.imp fun h he => h (by rw [he]; exact ReflCmp.compare_self)

def CoinMap.spentCount (coins : CoinMap) : Nat :=
  coins.toList.countP fun entry => entry.2.spent

def CoinMap.addedCount (coins : CoinMap) : Nat :=
  coins.size - CoinMap.spentCount coins

def Transaction.created (tx : Transaction) : List (OutPoint × Coin) :=
  let txid := tx.id
  tx.outputs.zipIdx.map fun (output, position) =>
    (⟨txid, UInt32.ofNat position⟩, ⟨output, tx.isCoinbase, false⟩)

end CoinLedger

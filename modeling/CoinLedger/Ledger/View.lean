import CoinLedger.Ledger.Coin

/-! Views of the coins: the ledger itself, and overlays that keep what they change apart from the
view below them until it is committed there. An overlay keeps a spent coin, marked as spent, to hide
the coin of the views below. `coin?_addCoin` and `coin?_spendCoin` say that both kinds of view answer
alike after a change. -/
namespace CoinLedger

inductive CoinView where
  | ledger (coins : CoinMap)
  | overlay (parent : CoinView) (changes : CoinMap)

namespace CoinView

def empty : CoinView := ledger ∅

/-- The coin at a place, if there is one and it is not spent. -/
def coin? : CoinView → OutPoint → Option Coin
  | ledger coins, point => coins[point]?.filter fun coin => !coin.spent
  | overlay parent changes, point =>
    match changes[point]? with
    | some coin => if coin.spent then none else some coin
    | none => parent.coin? point

def hasCoin (view : CoinView) (point : OutPoint) : Bool :=
  (view.coin? point).isSome

/-- Put a coin at a place, over whatever was there. -/
def addCoin : CoinView → OutPoint → Coin → CoinView
  | ledger coins, point, coin => ledger (coins.insert point coin)
  | overlay parent changes, point, coin => overlay parent (changes.insert point coin)

/-- Spend the coin at a place. An overlay marks it, and leaves a place without a coin alone. -/
def spendCoin (view : CoinView) (point : OutPoint) : CoinView :=
  match view with
  | ledger coins => ledger (coins.erase point)
  | overlay parent changes =>
    match view.coin? point with
    | none => view
    | some coin => overlay parent (changes.insert point { coin with spent := true })

def applyEntry (view : CoinView) (entry : OutPoint × Coin) : CoinView :=
  if entry.2.spent then view.spendCoin entry.1 else view.addCoin entry.1 entry.2

def applyEntries (view : CoinView) (entries : List (OutPoint × Coin)) : CoinView :=
  entries.foldl applyEntry view

def applyChanges (view : CoinView) (changes : CoinMap) : CoinView :=
  view.applyEntries changes.toList

def layer (view : CoinView) : CoinView :=
  overlay view ∅

/-- The view below an overlay; the ledger has none below it. -/
def parent : CoinView → CoinView
  | ledger coins => ledger coins
  | overlay parent _ => parent

/-- The changes of an overlay; the ledger keeps none apart. -/
def changes : CoinView → CoinMap
  | ledger _ => ∅
  | overlay _ changes => changes

/-- Carry out the changes of an overlay in the view below it. -/
def commit (view : CoinView) : CoinView :=
  view.parent.applyChanges view.changes

/-- The coins of the ledger at the bottom, the ones marked as spent included. -/
def base : CoinView → CoinMap
  | ledger coins => coins
  | overlay parent _ => parent.base

def depth : CoinView → Nat
  | ledger _ => 0
  | overlay parent _ => parent.depth + 1

/-- How many places the topmost layer speaks about. -/
def size : CoinView → Nat
  | ledger coins => coins.size
  | overlay _ changes => changes.size

def addCoins (view : CoinView) (tx : Transaction) : CoinView :=
  tx.created.foldl (fun view entry => view.addCoin entry.1 entry.2) view

/-- The effect of a transaction: its prevouts are spent, then the coins that it makes are added. -/
def update (view : CoinView) (tx : Transaction) : CoinView :=
  (tx.prevouts.foldl spendCoin view).addCoins tx

theorem coin?_layer (view : CoinView) (point : OutPoint) :
    view.layer.coin? point = view.coin? point := by
  simp [layer, coin?]

theorem coin?_addCoin (view : CoinView) (point other : OutPoint) (coin : Coin) :
    (view.addCoin point coin).coin? other
      = if point = other then (if coin.spent then none else some coin) else view.coin? other := by
  cases view with
  | ledger coins =>
    by_cases same : point = other
    · cases spent : coin.spent <;> simp [addCoin, coin?, same, spent]
    · simp [addCoin, coin?, same, Std.ExtTreeMap.getElem?_insert]
  | overlay parent changes =>
    by_cases same : point = other
    · simp [addCoin, coin?, same]
    · simp [addCoin, coin?, same, Std.ExtTreeMap.getElem?_insert]

theorem coin?_spendCoin (view : CoinView) (point other : OutPoint) :
    (view.spendCoin point).coin? other = if point = other then none else view.coin? other := by
  cases view with
  | ledger coins =>
    by_cases same : point = other
    · simp [spendCoin, coin?, same]
    · simp [spendCoin, coin?, same, Std.ExtTreeMap.getElem?_erase]
  | overlay parent changes =>
    cases found : (overlay parent changes).coin? point with
    | none =>
      by_cases same : point = other
      · simp [spendCoin, found, ← same]
      · simp [spendCoin, found, same]
    | some coin =>
      have marked : (overlay parent changes).spendCoin point
          = (overlay parent changes).addCoin point { coin with spent := true } := by
        simp [spendCoin, found, addCoin]
      rw [marked, coin?_addCoin]
      simp

end CoinView
end CoinLedger

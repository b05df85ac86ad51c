import CoinLedger.Proofs.View.InPlace

/-! The layers of a view. Every operation but opening and closing an overlay works on the topmost
layer alone and leaves the views beneath as they are; and a ledger without entries marked as spent
stays without them under any operation that adds none. -/
namespace CoinLedger
open Std

/-- No entry is marked as spent. -/
def CoinMap.Unspent (coins : CoinMap) : Prop :=
  ∀ (point : OutPoint) (coin : Coin), coins[point]? = some coin → coin.spent = false

namespace CoinView

/-- The views beneath the topmost layer, the nearest first and the ledger last. -/
def beneath : CoinView → List CoinView
  | ledger _ => []
  | overlay parent _ => parent :: parent.beneath

/-- All the views that are open, the topmost first and the ledger last. -/
def levels (view : CoinView) : List CoinView := view :: view.beneath

theorem length_beneath (view : CoinView) : view.beneath.length = view.depth := by
  induction view with
  | ledger coins => rfl
  | overlay parent changes ih => rw [beneath, List.length_cons, ih, depth]

theorem beneath_addCoin (view : CoinView) (point : OutPoint) (coin : Coin) :
    (view.addCoin point coin).beneath = view.beneath := by
  cases view <;> rfl

theorem beneath_spendCoin (view : CoinView) (point : OutPoint) :
    (view.spendCoin point).beneath = view.beneath := by
  cases view with
  | ledger coins => rfl
  | overlay parent changes =>
    rw [spendCoin]
    cases (overlay parent changes).coin? point <;> rfl

theorem beneath_foldl {α : Type} {f : CoinView → α → CoinView}
    (hf : ∀ view item, (f view item).beneath = view.beneath) (items : List α) (view : CoinView) :
    (items.foldl f view).beneath = view.beneath := by
  induction items generalizing view with
  | nil => rfl
  | cons item rest ih => rw [List.foldl_cons, ih, hf]

theorem beneath_applyEntries (view : CoinView) (entries : List (OutPoint × Coin)) :
    (view.applyEntries entries).beneath = view.beneath := by
  apply beneath_foldl
  intro view entry
  rw [applyEntry]
  split
  · exact beneath_spendCoin view entry.1
  · exact beneath_addCoin view entry.1 entry.2

theorem beneath_addCoins (view : CoinView) (tx : Transaction) :
    (view.addCoins tx).beneath = view.beneath := by
  apply beneath_foldl
  intro view entry
  exact view.beneath_addCoin entry.1 entry.2

theorem beneath_update (view : CoinView) (tx : Transaction) :
    (view.update tx).beneath = view.beneath := by
  rw [update, beneath_addCoins, beneath_foldl beneath_spendCoin]

theorem beneath_process {view done : CoinView} {txs : List Transaction}
    (h : view.process txs = .ok done) : done.beneath = view.beneath := by
  induction txs generalizing view with
  | nil =>
    cases h
    rfl
  | cons tx rest ih =>
    obtain ⟨_, hr⟩ := process_cons_iff.mp h
    rw [ih hr, beneath_update]

/-- The view to commit to is the one that the overlay was opened on. -/
theorem parent_of_process_layer {view done : CoinView} {txs : List Transaction}
    (h : view.layer.process txs = .ok done) : done.parent = view := by
  have hb := beneath_process h
  cases done with
  | ledger coins => cases hb
  | overlay parent changes => exact (List.cons.inj hb).1

theorem beneath_connectBy (listing : Listing) (view : CoinView) (block : Block) :
    (view.connectBy listing block).2.beneath = view.beneath := by
  rw [connectBy]
  cases block.check with
  | invalid reason => rfl
  | valid =>
    cases hp : view.layer.process block.transactions with
    | error reason => rfl
    | ok done =>
      show (done.commitBy listing).beneath = view.beneath
      rw [commitBy, beneath_applyEntries, parent_of_process_layer hp]

theorem base_eq_of_beneath_eq {v w : CoinView} (h : v.beneath = w.beneath)
    (hv : v.beneath ≠ []) : v.base = w.base := by
  cases v with
  | ledger coins => exact absurd rfl hv
  | overlay parent changes =>
    cases w with
    | ledger coins => cases h
    | overlay other changes => rw [base, base, (List.cons.inj h).1]

end CoinView

open CoinView

theorem coin?_ledger_of_unspent {coins : CoinMap} (h : coins.Unspent) (point : OutPoint) :
    (ledger coins).coin? point = coins[point]? := by
  cases hc : coins[point]? with
  | none => simp [coin?, hc]
  | some coin => simp [coin?, hc, Option.filter, h point coin hc]

namespace CoinMap.Unspent
variable {coins : CoinMap}

theorem insert (h : coins.Unspent) (point : OutPoint) {coin : Coin} (hs : coin.spent = false) :
    CoinMap.Unspent (coins.insert point coin) := by
  intro other found hf
  rw [ExtTreeMap.getElem?_insert] at hf
  split at hf
  · cases hf
    exact hs
  · exact h other found hf

theorem erase (h : coins.Unspent) (point : OutPoint) : CoinMap.Unspent (coins.erase point) := by
  intro other found hf
  rw [ExtTreeMap.getElem?_erase] at hf
  split at hf
  · cases hf
  · exact h other found hf

theorem eraseAll (h : coins.Unspent) (points : List OutPoint) :
    CoinMap.Unspent (points.foldl (fun coins point => coins.erase point) coins) := by
  induction points generalizing coins with
  | nil => exact h
  | cons point rest ih => exact ih (h.erase point)

theorem insertAll (h : coins.Unspent) {entries : List (OutPoint × Coin)}
    (hs : ∀ entry ∈ entries, entry.2.spent = false) :
    CoinMap.Unspent (entries.foldl (fun coins entry => coins.insert entry.1 entry.2) coins) := by
  induction entries generalizing coins with
  | nil => exact h
  | cons entry rest ih =>
    exact ih (h.insert entry.1 (hs entry List.mem_cons_self))
      fun other hm => hs other (List.mem_cons_of_mem entry hm)

theorem update (h : coins.Unspent) (tx : Transaction) : CoinMap.Unspent (coins.update tx) :=
  (h.eraseAll tx.prevouts).insertAll fun _ he => spent_of_mem_created he

theorem carryOut (h : coins.Unspent) (entries : List (OutPoint × Coin)) :
    CoinMap.Unspent (coins.carryOut entries) := by
  intro point coin hc
  rw [getElem?_carryOut] at hc
  exact spent_of_settle (fun old ho => h point old ho) hc

theorem process (h : coins.Unspent) {txs : List Transaction} {after : CoinMap}
    (hp : coins.process txs = .ok after) : after.Unspent := by
  induction txs generalizing coins with
  | nil =>
    cases hp
    exact h
  | cons tx rest ih =>
    rw [CoinMap.process] at hp
    cases hv : (ledger coins).verify tx with
    | invalid reason =>
      rw [hv] at hp
      cases hp
    | valid =>
      rw [hv] at hp
      exact ih (h.update tx) hp

theorem connectInPlace (h : coins.Unspent) (block : Block) :
    (coins.connectInPlace block).2.Unspent := by
  rw [CoinMap.connectInPlace]
  cases block.check with
  | invalid reason => exact h
  | valid =>
    cases hp : coins.process block.transactions with
    | error reason => exact h
    | ok after => exact h.process hp

end CoinMap.Unspent
end CoinLedger

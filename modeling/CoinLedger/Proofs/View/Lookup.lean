import CoinLedger.Ledger.View

/-! What is read at a place after a list of changes: the last change that names the place decides.
Since a coin map names each of its places once, the order in which its entries are carried out does
not matter; `coin?_commitBy` says so for every listing of the changes of an overlay. -/
namespace CoinLedger
open Std

/-- An order in which the entries of any coin map may be taken. -/
structure Listing where
  entries : CoinMap → List (OutPoint × Coin)
  perm : ∀ coins, (entries coins).Perm coins.toList

def Listing.sorted : Listing := ⟨ExtTreeMap.toList, fun _ => .refl _⟩

def Listing.descending : Listing :=
  ⟨fun coins => coins.toList.reverse, fun coins => coins.toList.reverse_perm⟩

/-- The last coin that a list of changes has for a place. -/
def lastAt (point : OutPoint) : List (OutPoint × Coin) → Option Coin
  | [] => none
  | entry :: rest => (lastAt point rest).or (if entry.1 = point then some entry.2 else none)

/-- What is read where there may be a change above what would be read without it. -/
def settle : Option Coin → Option Coin → Option Coin
  | none, below => below
  | some coin, _ => if coin.spent then none else some coin

@[simp] theorem settle_none (below : Option Coin) : settle none below = below := rfl

theorem settle_or (late early below : Option Coin) :
    settle (late.or early) below = settle late (settle early below) := by
  cases late <;> rfl

theorem spent_of_settle {change below : Option Coin} {coin : Coin}
    (hb : ∀ old, below = some old → old.spent = false) (h : settle change below = some coin) :
    coin.spent = false := by
  cases change with
  | none => exact hb coin h
  | some new =>
    cases hs : new.spent with
    | true => simp [settle, hs] at h
    | false =>
      simp only [settle, hs, Bool.false_eq_true, if_false, Option.some.injEq] at h
      rw [← h, hs]

/-- The one induction on a list of changes. It asks of a way to carry them out only what is read at
the place after a single change. -/
theorem read_foldl {σ : Type} (write : σ → OutPoint × Coin → σ) (read : σ → Option Coin)
    (point : OutPoint)
    (hw : ∀ state entry, read (write state entry)
      = settle (if entry.1 = point then some entry.2 else none) (read state))
    (entries : List (OutPoint × Coin)) (state : σ) :
    read (entries.foldl write state) = settle (lastAt point entries) (read state) := by
  induction entries generalizing state with
  | nil => rfl
  | cons entry rest ih => rw [List.foldl_cons, ih, hw, lastAt, settle_or]

theorem lastAt_eq_none_iff {point : OutPoint} {entries : List (OutPoint × Coin)} :
    lastAt point entries = none ↔ ∀ entry ∈ entries, entry.1 ≠ point := by
  induction entries with
  | nil => simp [lastAt]
  | cons entry rest ih =>
    rw [lastAt, Option.or_eq_none_iff, ih, List.forall_mem_cons, and_comm]
    by_cases hp : entry.1 = point <;> simp [hp]

theorem mem_of_lastAt {point : OutPoint} {coin : Coin} {entries : List (OutPoint × Coin)}
    (h : lastAt point entries = some coin) : (point, coin) ∈ entries := by
  induction entries with
  | nil => cases h
  | cons entry rest ih =>
    obtain ⟨place, new⟩ := entry
    cases hr : lastAt point rest with
    | some old =>
      rw [lastAt, hr, Option.some_or, Option.some.injEq] at h
      exact List.mem_cons_of_mem _ (ih (by rw [hr, h]))
    | none =>
      by_cases hp : place = point
      · simp only [lastAt, hr, hp, if_true, Option.none_or, Option.some.injEq] at h
        rw [hp, h]
        exact List.mem_cons_self
      · simp [lastAt, hr, hp] at h

theorem lastAt_of_mem {point : OutPoint} {coin : Coin} {entries : List (OutPoint × Coin)}
    (hn : entries.Pairwise fun a b => a.1 ≠ b.1) (h : (point, coin) ∈ entries) :
    lastAt point entries = some coin := by
  induction entries with
  | nil => cases h
  | cons entry rest ih =>
    obtain ⟨hne, hn⟩ := List.pairwise_cons.mp hn
    cases List.mem_cons.mp h with
    | inl he =>
      subst he
      have hr := lastAt_eq_none_iff.mpr fun other hm => (hne other hm).symm
      simp [lastAt, hr]
    | inr hm => rw [lastAt, ih hn hm, Option.some_or]

namespace Listing
variable (listing : Listing) (coins : CoinMap)

theorem pairwise_entries : (listing.entries coins).Pairwise fun a b => a.1 ≠ b.1 :=
  (CoinMap.pairwise_toList coins).perm (listing.perm coins).symm fun h => h.symm

theorem mem_entries {point : OutPoint} {coin : Coin} :
    (point, coin) ∈ listing.entries coins ↔ coins[point]? = some coin := by
  rw [(listing.perm coins).mem_iff, ExtTreeMap.mem_toList_iff_getElem?_eq_some]

/-- A coin map has one entry for a place, so every listing of it ends in that one. -/
theorem lastAt_entries (point : OutPoint) :
    lastAt point (listing.entries coins) = coins[point]? := by
  cases h : coins[point]? with
  | some coin =>
    exact lastAt_of_mem (listing.pairwise_entries coins) ((listing.mem_entries coins).mpr h)
  | none =>
    apply lastAt_eq_none_iff.mpr
    intro entry hm he
    rw [← he, (listing.mem_entries coins).mp hm] at h
    cases h

end Listing

namespace CoinView

/-- Carry out the changes of an overlay in the view below it, in an order of choice. -/
def commitBy (listing : Listing) (view : CoinView) : CoinView :=
  view.parent.applyEntries (listing.entries view.changes)

theorem commitBy_sorted (view : CoinView) : view.commitBy .sorted = view.commit := rfl

theorem coin?_overlay (parent : CoinView) (changes : CoinMap) (point : OutPoint) :
    (overlay parent changes).coin? point = settle changes[point]? (parent.coin? point) := by
  cases h : changes[point]? <;> simp [coin?, settle, h]

theorem spent_of_coin? {view : CoinView} {point : OutPoint} {coin : Coin}
    (h : view.coin? point = some coin) : coin.spent = false := by
  induction view generalizing coin with
  | ledger coins =>
    simp only [coin?, Option.filter_eq_some_iff] at h
    simpa using h.2
  | overlay parent changes ih =>
    rw [coin?_overlay] at h
    exact spent_of_settle (fun _ ho => ih ho) h

theorem coin?_applyEntry (view : CoinView) (point : OutPoint) (entry : OutPoint × Coin) :
    (view.applyEntry entry).coin? point
      = settle (if entry.1 = point then some entry.2 else none) (view.coin? point) := by
  by_cases hp : entry.1 = point
  · cases hs : entry.2.spent <;>
      simp [applyEntry, coin?_addCoin, coin?_spendCoin, settle, hs, hp]
  · cases hs : entry.2.spent <;> simp [applyEntry, coin?_addCoin, coin?_spendCoin, hs, hp]

theorem coin?_applyEntries (view : CoinView) (point : OutPoint)
    (entries : List (OutPoint × Coin)) :
    (view.applyEntries entries).coin? point
      = settle (lastAt point entries) (view.coin? point) :=
  read_foldl applyEntry (coin? · point) point (fun view => view.coin?_applyEntry point) entries view

/-- After its changes are carried out, in any order, the view below an overlay answers as the
overlay did. -/
theorem coin?_commitBy (listing : Listing) (view : CoinView) (point : OutPoint) :
    (view.commitBy listing).coin? point = view.coin? point := by
  rw [commitBy, coin?_applyEntries, listing.lastAt_entries]
  cases view with
  | ledger coins => simp [changes, parent]
  | overlay parent changes => exact (coin?_overlay parent changes point).symm

theorem coin?_spendCoins (view : CoinView) (points : List OutPoint) (point : OutPoint) :
    (points.foldl spendCoin view).coin? point
      = if point ∈ points then none else view.coin? point := by
  induction points generalizing view with
  | nil => simp
  | cons first rest ih =>
    rw [List.foldl_cons, ih, coin?_spendCoin]
    by_cases hf : first = point
    · simp [hf]
    · simp [hf, Ne.symm hf]

theorem coin?_addCoins (view : CoinView) (tx : Transaction) (point : OutPoint) :
    (view.addCoins tx).coin? point = settle (lastAt point tx.created) (view.coin? point) := by
  apply read_foldl _ (coin? · point)
  intro view entry
  rw [coin?_addCoin]
  by_cases hp : entry.1 = point <;> simp [hp, settle]

/-- After a transaction: what it makes last at the place, or else nothing where it spends. -/
theorem coin?_update (view : CoinView) (tx : Transaction) (point : OutPoint) :
    (view.update tx).coin? point
      = settle (lastAt point tx.created)
          (if point ∈ tx.prevouts then none else view.coin? point) := by
  rw [update, coin?_addCoins, coin?_spendCoins]

end CoinView
end CoinLedger

import CoinLedger.Proofs.Block.Checked
import CoinLedger.Proofs.View.Layers

/-! Coins that are put over others. Nothing keeps a coin from being put where another one is still
visible, and that one is then lost. The size of a ledger tells: every transaction takes out as many
entries as it has inputs and puts in as many as it has outputs, less those that cover another. -/
namespace CoinLedger
open Std

namespace CoinView

/-- The places at which entries, one after another, put a coin over one that is still visible. -/
def covered (view : CoinView) : List (OutPoint × Coin) → List OutPoint
  | [] => []
  | entry :: rest =>
    if entry.2.spent = false ∧ view.hasCoin entry.1 = true then
      entry.1 :: (view.applyEntry entry).covered rest
    else (view.applyEntry entry).covered rest

/-- The places at which transactions, one after another, put a coin over one that is still visible
after their prevouts are spent. -/
def coveredBy (view : CoinView) : List Transaction → List OutPoint
  | [] => []
  | tx :: rest =>
    (tx.prevouts.foldl spendCoin view).covered tx.created ++ (view.update tx).coveredBy rest

namespace Agree
variable {v w : CoinView}

theorem hasCoin (h : v.Agree w) (point : OutPoint) : v.hasCoin point = w.hasCoin point := by
  rw [CoinView.hasCoin, CoinView.hasCoin, h point]

theorem applyEntry (h : v.Agree w) (entry : OutPoint × Coin) :
    (v.applyEntry entry).Agree (w.applyEntry entry) := by
  intro point
  rw [coin?_applyEntry, coin?_applyEntry, h point]

theorem covered (h : v.Agree w) (entries : List (OutPoint × Coin)) :
    v.covered entries = w.covered entries := by
  induction entries generalizing v w with
  | nil => rfl
  | cons entry rest ih =>
    rw [CoinView.covered, CoinView.covered, h.hasCoin entry.1, ih (h.applyEntry entry)]

theorem coveredBy (h : v.Agree w) (txs : List Transaction) :
    v.coveredBy txs = w.coveredBy txs := by
  induction txs generalizing v w with
  | nil => rfl
  | cons tx rest ih =>
    rw [CoinView.coveredBy, CoinView.coveredBy, (h.spendCoins tx.prevouts).covered,
      ih (h.update tx)]

end Agree

theorem coveredBy_layer (view : CoinView) (txs : List Transaction) :
    view.layer.coveredBy txs = view.coveredBy txs :=
  (Agree.refl view).layer.coveredBy txs

theorem hasCoin_applyEntry_of_ne (view : CoinView) {entry : OutPoint × Coin} {point : OutPoint}
    (h : entry.1 ≠ point) : (view.applyEntry entry).hasCoin point = view.hasCoin point := by
  rw [hasCoin, coin?_applyEntry, if_neg h, settle_none, hasCoin]

/-- Entries at different places do not meet, so each is judged by the view before all of them. -/
theorem covered_eq_nil_iff {view : CoinView} {entries : List (OutPoint × Coin)}
    (hd : entries.Pairwise fun a b => a.1 ≠ b.1) :
    view.covered entries = []
      ↔ ∀ entry ∈ entries, entry.2.spent = false → view.hasCoin entry.1 = false := by
  induction entries generalizing view with
  | nil => simp [covered]
  | cons entry rest ih =>
    obtain ⟨hne, hr⟩ := List.pairwise_cons.mp hd
    have hrest : (view.applyEntry entry).covered rest = []
        ↔ ∀ other ∈ rest, other.2.spent = false → view.hasCoin other.1 = false := by
      rw [ih hr]
      apply forall₂_congr
      intro other hm
      rw [hasCoin_applyEntry_of_ne view (hne other hm)]
    rw [covered, List.forall_mem_cons, ← hrest]
    by_cases hc : entry.2.spent = false ∧ view.hasCoin entry.1 = true
    · simp [hc]
    · rw [if_neg hc]
      have hf : entry.2.spent = false → view.hasCoin entry.1 = false := by
        intro hs
        exact Bool.eq_false_iff.mpr fun hv => hc ⟨hs, hv⟩
      exact ⟨fun h => ⟨hf, h⟩, fun h => h.2⟩

end CoinView

open CoinView

namespace CoinMap
variable {coins : CoinMap}

theorem Unspent.hasCoin_eq (h : coins.Unspent) (point : OutPoint) :
    (ledger coins).hasCoin point = coins.contains point := by
  rw [hasCoin, coin?_ledger_of_unspent h, ExtTreeMap.isSome_getElem?_eq_contains]

theorem size_eraseAll {points : List OutPoint} (hd : points.Nodup)
    (hc : ∀ point ∈ points, coins.contains point = true) :
    (points.foldl (fun coins point => coins.erase point) coins).size + points.length
      = coins.size := by
  induction points generalizing coins with
  | nil => rfl
  | cons point rest ih =>
    obtain ⟨hm, hr⟩ := List.nodup_cons.mp hd
    obtain ⟨hp, hcr⟩ := List.forall_mem_cons.mp hc
    have hrest : ∀ other ∈ rest, (coins.erase point).contains other = true := by
      intro other ho
      have hne : point ≠ other := fun he => hm (by rwa [he])
      simp [ExtTreeMap.contains_erase, hne, hcr other ho]
    have hs := ih hr hrest
    have hpos : coins.size ≠ 0 := by
      intro h0
      rw [ExtTreeMap.eq_empty_iff_size_eq_zero.mpr h0] at hp
      simp at hp
    rw [ExtTreeMap.size_erase, if_pos hp] at hs
    rw [List.foldl_cons, List.length_cons]
    omega

theorem size_insertAll (hu : coins.Unspent) {entries : List (OutPoint × Coin)}
    (hs : ∀ entry ∈ entries, entry.2.spent = false) :
    (entries.foldl (fun coins entry => coins.insert entry.1 entry.2) coins).size
        + ((ledger coins).covered entries).length
      = coins.size + entries.length := by
  induction entries generalizing coins with
  | nil => rfl
  | cons entry rest ih =>
    obtain ⟨he, hr⟩ := List.forall_mem_cons.mp hs
    have hi := ih (hu.insert entry.1 he) hr
    have ha : (ledger coins).applyEntry entry = ledger (coins.insert entry.1 entry.2) := by
      simp [applyEntry, addCoin, he]
    rw [ExtTreeMap.size_insert] at hi
    rw [List.foldl_cons, covered, ha, hu.hasCoin_eq, List.length_cons]
    by_cases hc : coins.contains entry.1 = true
    · rw [if_pos hc] at hi
      rw [if_pos ⟨he, hc⟩, List.length_cons]
      omega
    · rw [if_neg hc] at hi
      rw [if_neg fun h => hc h.2]
      omega

end CoinMap

theorem length_created (tx : Transaction) : tx.created.length = tx.outputs.length := by
  simp [Transaction.created]

theorem size_update {coins : CoinMap} (hu : coins.Unspent) {tx : Transaction}
    (hk : tx.check = .valid) (hv : (ledger coins).verify tx = .valid) :
    (coins.update tx).size + tx.inputs.length
        + ((tx.prevouts.foldl spendCoin (ledger coins)).covered tx.created).length
      = coins.size + tx.outputs.length := by
  have hc : ∀ point ∈ tx.prevouts, coins.contains point = true := by
    intro point hp
    obtain ⟨coin, hf⟩ := coin?_of_verify hv hp
    rw [← hu.hasCoin_eq, hasCoin, hf]
    rfl
  have he := CoinMap.size_eraseAll (Transaction.nodup_prevouts_of_check hk) hc
  have hs : ∀ entry ∈ tx.created, entry.2.spent = false := fun _ hm => spent_of_mem_created hm
  have hi := CoinMap.size_insertAll (hu.eraseAll tx.prevouts) hs
  have hl : tx.prevouts.length = tx.inputs.length := List.length_map _
  rw [length_created] at hi
  rw [CoinMap.update, spendCoins_ledger]
  omega

/-- What a list of transactions does to the size of a ledger. -/
theorem size_process {coins after : CoinMap} (hu : coins.Unspent) {txs : List Transaction}
    (hk : ∀ tx ∈ txs, tx.check = .valid)
    (h : (ledger coins).process txs = .ok (ledger after)) :
    after.size + (txs.flatMap (·.inputs)).length + ((ledger coins).coveredBy txs).length
      = coins.size + (txs.flatMap (·.outputs)).length := by
  induction txs generalizing coins with
  | nil =>
    cases h
    rfl
  | cons tx rest ih =>
    obtain ⟨ht, hr⟩ := List.forall_mem_cons.mp hk
    obtain ⟨hv, hp⟩ := process_cons_iff.mp h
    rw [update_ledger] at hp
    have hstep := size_update hu ht hv
    have hrest := ih (hu.update tx) hr hp
    rw [coveredBy, update_ledger]
    simp only [List.flatMap_cons, List.length_append]
    omega

end CoinLedger

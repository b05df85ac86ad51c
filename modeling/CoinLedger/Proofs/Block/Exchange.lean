import CoinLedger.Block.Mining
import CoinLedger.Proofs.Block.Checked
import CoinLedger.Proofs.Chain.History

/-! Neighbours in a block that have nothing to do with each other can change places. Neither sees
what the other does: the coins that it spends are the same before and after the other. And both
orders lead to the same ledger, entry for entry, so what follows in the block is not touched, even
if it spends what both of them made. -/
namespace CoinLedger
open CoinView Std

/-- Two transactions of different names that spend no coin in common and none of each other. -/
structure Independent (t u : Transaction) : Prop where
  ids_ne : t.id ≠ u.id
  disjoint : ∀ point ∈ t.prevouts, point ∉ u.prevouts
  left_free : ∀ point ∈ t.prevouts, point.txid ≠ u.id
  right_free : ∀ point ∈ u.prevouts, point.txid ≠ t.id

theorem lastAt_created_of_txid_ne {tx : Transaction} {point : OutPoint} (h : point.txid ≠ tx.id) :
    lastAt point tx.created = none :=
  Transaction.lastAt_created_eq_none_iff.mpr fun hm => h (Transaction.txid_of_mem_made hm)

namespace Independent
variable {t u : Transaction}

theorem symm (h : Independent t u) : Independent u t :=
  ⟨h.ids_ne.symm, fun point hu ht => h.disjoint point ht hu, h.right_free, h.left_free⟩

/-- The effects of the two can be had in either order, on entries marked as spent too. -/
theorem update_comm (h : Independent t u) (coins : CoinMap) :
    CoinMap.update (coins.update t) u = CoinMap.update (coins.update u) t := by
  apply ExtTreeMap.ext_getElem?
  intro point
  simp only [CoinMap.getElem?_update]
  by_cases ht : point.txid = t.id
  · have hu : point.txid ≠ u.id := by
      rw [ht]
      exact h.ids_ne
    have hp : point ∉ u.prevouts := fun hm => h.right_free point hm ht
    simp only [lastAt_created_of_txid_ne hu, settle_none, hp, if_false]
  · by_cases hu : point.txid = u.id
    · have hp : point ∉ t.prevouts := fun hm => h.left_free point hm hu
      simp only [lastAt_created_of_txid_ne ht, settle_none, hp, if_false]
    · simp only [lastAt_created_of_txid_ne ht, lastAt_created_of_txid_ne hu, settle_none]
      by_cases hp : point ∈ t.prevouts <;> by_cases hq : point ∈ u.prevouts <;> simp [hp, hq]

/-- The verdict on either does not depend on whether the other has been carried out. -/
theorem verify_update (h : Independent t u) (view : CoinView) :
    (view.update t).verify u = view.verify u := by
  apply verify_congr
  intro point hp
  have hl := lastAt_created_of_txid_ne (h.right_free point hp)
  have hn : point ∉ t.prevouts := fun hm => h.disjoint point hm hp
  rw [coin?_update, hl, settle_none, if_neg hn]

theorem process_exchange (h : Independent t u) {coins : CoinMap} {done : CoinView}
    {front rest : List Transaction}
    (hp : (ledger coins).process (front ++ t :: u :: rest) = .ok done) :
    (ledger coins).process (front ++ u :: t :: rest) = .ok done := by
  induction front generalizing coins with
  | nil =>
    obtain ⟨ht, hr⟩ := process_cons_iff.mp hp
    obtain ⟨hu, hr⟩ := process_cons_iff.mp hr
    rw [h.verify_update] at hu
    rw [update_ledger, update_ledger, h.update_comm] at hr
    rw [← h.symm.verify_update] at ht
    refine process_cons_iff.mpr ⟨hu, process_cons_iff.mpr ⟨ht, ?_⟩⟩
    rw [update_ledger, update_ledger]
    exact hr
  | cons first more ih =>
    obtain ⟨hf, hr⟩ := process_cons_iff.mp hp
    rw [update_ledger] at hr
    refine process_cons_iff.mpr ⟨hf, ?_⟩
    rw [update_ledger]
    exact ih hr

end Independent

section Check
variable {front rest : List Transaction} {t u : Transaction}

theorem exchange_perm : (front ++ t :: u :: rest).Perm (front ++ u :: t :: rest) :=
  (List.Perm.swap u t rest).append_left front

/-- The coinbase stands first, so it is not one of two neighbours of which the first is a spend. -/
theorem checkCoinbase_exchange (ht : t.isCoinbase = false)
    (h : checkCoinbase (front ++ t :: u :: rest) = .valid) :
    checkCoinbase (front ++ u :: t :: rest) = .valid := by
  obtain ⟨outputs, others, he, hn⟩ := checkCoinbase_eq_valid_iff.mp h
  cases front with
  | nil =>
    rw [List.nil_append, List.cons.injEq] at he
    rw [he.1] at ht
    cases ht
  | cons first more =>
    obtain ⟨rfl, rfl⟩ := List.cons.inj he
    refine checkCoinbase_eq_valid_iff.mpr ⟨outputs, more ++ u :: t :: rest, rfl, ?_⟩
    intro tx hm
    exact hn tx (exchange_perm.mem_iff.mpr hm)

theorem checkTransactions_exchange (h : checkTransactions (front ++ t :: u :: rest) = .valid) :
    checkTransactions (front ++ u :: t :: rest) = .valid := by
  rw [checkTransactions_eq_valid_iff] at h ⊢
  intro tx hm
  exact h tx (exchange_perm.mem_iff.mpr hm)

theorem exists_transactionRoot? (txs : List Transaction) (h : txs ≠ []) :
    ∃ root, transactionRoot? txs = some root := by
  apply Option.isSome_iff_exists.mp
  rw [transactionRoot?, isSome_merkleRoot?]
  simpa using h

end Check

/-- If an accepted block has two neighbouring spends that are independent, the block with the two
exchanged, and with a header that commits to the new list, is accepted on the same ledger as well
and leaves the same, entry for entry. -/
theorem connect_exchange {coins : CoinMap} {header : Header} {front rest : List Transaction}
    {t u : Transaction} {after : CoinView}
    (h : (ledger coins).connect ⟨header, front ++ t :: u :: rest⟩ = (.valid, after))
    (ht : t.isCoinbase = false) (hi : Independent t u) :
    ∃ root, transactionRoot? (front ++ u :: t :: rest) = some root
      ∧ (ledger coins).connect ⟨{ header with root }, front ++ u :: t :: rest⟩
        = (.valid, after) := by
  obtain ⟨hb, hp⟩ := connect_ledger_eq_valid_iff.mp h
  obtain ⟨_, hc, hk⟩ := Block.check_eq_valid_iff.mp hb
  obtain ⟨root, hr⟩ := exists_transactionRoot? (front ++ u :: t :: rest) (by simp)
  refine ⟨root, hr, connect_ledger_eq_valid_iff.mpr ⟨?_, hi.process_exchange hp⟩⟩
  exact Block.check_eq_valid_iff.mpr
    ⟨hr, checkCoinbase_exchange ht hc, checkTransactions_exchange hk⟩

/-- Two coins of seven and eight. -/
def sevenAndEight : CoinMap :=
  ((∅ : CoinMap).insert ⟨sha256 [1], 0⟩ ⟨⟨7, []⟩, false, false⟩).insert
    ⟨sha256 [2], 0⟩ ⟨⟨8, []⟩, false, false⟩

def spendSeven : Transaction := .spend [⟨⟨sha256 [1], 0⟩, ⟨[], [1]⟩⟩] [⟨7, []⟩]

def spendEight : Transaction := .spend [⟨⟨sha256 [2], 0⟩, ⟨[], [1]⟩⟩] [⟨8, []⟩]

/-- Spends what the two before make. -/
def spendBoth : Transaction :=
  .spend [⟨⟨spendSeven.id, 0⟩, ⟨[], [1]⟩⟩, ⟨⟨spendEight.id, 0⟩, ⟨[], [1]⟩⟩] [⟨15, []⟩]

def sevenFirst : Block :=
  Block.assemble [] 50 [spendSeven, spendEight, spendBoth] (sha256 []) 0

theorem sevenFirst_exchange :
    ((ledger sevenAndEight).connect sevenFirst).1 = .valid
      ∧ Independent spendSeven spendEight
      ∧ ∃ root, (ledger sevenAndEight).connect ⟨{ sevenFirst.header with root },
          [rewardCoinbase [] 50, spendEight, spendSeven, spendBoth]⟩
        = (ledger sevenAndEight).connect sevenFirst := by
  have hv : ((ledger sevenAndEight).connect sevenFirst).1 = .valid := by decide +kernel
  have hi : Independent spendSeven spendEight :=
    ⟨by decide +kernel, by decide +kernel, by decide +kernel, by decide +kernel⟩
  have he : (⟨sevenFirst.header, [rewardCoinbase [] 50] ++ spendSeven :: spendEight :: [spendBoth]⟩
      : Block) = sevenFirst := rfl
  have hc : (ledger sevenAndEight).connect sevenFirst
      = (.valid, ((ledger sevenAndEight).connect sevenFirst).2) := Prod.ext hv rfl
  obtain ⟨root, _, hr⟩ := connect_exchange (by rw [he, hc]) rfl hi
  exact ⟨hv, hi, root, hr.trans hc.symm⟩

end CoinLedger

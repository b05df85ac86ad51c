import CoinLedger.Block.Mining
import CoinLedger.Proofs.Block.Checked
import CoinLedger.Proofs.Value.Exact
import CoinLedger.Proofs.Value.Range
import CoinLedger.Proofs.Value.Total
import CoinLedger.Proofs.View.InPlace

/-! The exact accounts of an accepted block. What the ledger is worth grows by what the coinbase
makes, and shrinks by the fees and by the coins that another coin was put in the place of. The sums
are followed on the ledger in place; the fees are those against the overlay, which agrees. -/
namespace CoinLedger
open Std

/-- The exact value of a coin, if it can be spent. -/
def Coin.worth (coin : Coin) : Int := if coin.spent then 0 else coin.value.toInt

/-- What the coins of a ledger that can be spent are worth together. -/
def CoinMap.worth (coins : CoinMap) : Int := coins.total Coin.worth

/-- The exact sum of the outputs of a coinbase; other transactions make no money. -/
def Transaction.minted (tx : Transaction) : Int :=
  if tx.isCoinbase then (tx.outputs.map (·.value.toInt)).sum else 0

namespace CoinView

/-- The fee of a transaction against a view; a coinbase pays none. -/
def feeOf (view : CoinView) (tx : Transaction) : Int :=
  if tx.isCoinbase then 0 else (view.checkInputs tx).2.toInt

/-- The fees of transactions, each against the view just before it. -/
def fees (view : CoinView) : List Transaction → Int
  | [] => 0
  | tx :: rest => view.feeOf tx + (view.update tx).fees rest

/-- What the coins are worth that are still visible where others are put. -/
def overwritten (view : CoinView) : List (OutPoint × Coin) → Int
  | [] => 0
  | entry :: rest => view.valueAt entry.1 + (view.addCoin entry.1 entry.2).overwritten rest

/-- What transactions overwrite, one after another, each after its prevouts are spent. -/
def lost (view : CoinView) : List Transaction → Int
  | [] => 0
  | tx :: rest =>
    (tx.prevouts.foldl spendCoin view).overwritten tx.created + (view.update tx).lost rest

namespace Agree
variable {v w : CoinView}

theorem fees (h : v.Agree w) (txs : List Transaction) : v.fees txs = w.fees txs := by
  induction txs generalizing v w with
  | nil => rfl
  | cons tx rest ih =>
    have hc : v.checkInputs tx = w.checkInputs tx := checkInputs_congr fun point _ => h point
    rw [CoinView.fees, CoinView.fees, feeOf, feeOf, hc, ih (h.update tx)]

theorem overwritten (h : v.Agree w) (entries : List (OutPoint × Coin)) :
    v.overwritten entries = w.overwritten entries := by
  induction entries generalizing v w with
  | nil => rfl
  | cons entry rest ih =>
    rw [CoinView.overwritten, CoinView.overwritten, valueAt_congr (h entry.1),
      ih (h.addCoin entry.1 entry.2)]

theorem lost (h : v.Agree w) (txs : List Transaction) : v.lost txs = w.lost txs := by
  induction txs generalizing v w with
  | nil => rfl
  | cons tx rest ih =>
    rw [CoinView.lost, CoinView.lost, (h.spendCoins tx.prevouts).overwritten, ih (h.update tx)]

end Agree
end CoinView

open CoinView

theorem weightAt_worth (coins : CoinMap) (point : OutPoint) :
    coins.weightAt Coin.worth point = (ledger coins).valueAt point := by
  rw [CoinMap.weightAt, valueAt, coin?]
  cases coins[point]? with
  | none => rfl
  | some coin => cases hs : coin.spent <;> simp [Coin.worth, Option.filter, hs]

theorem worth_insertAll (coins : CoinMap) (entries : List (OutPoint × Coin)) :
    CoinMap.worth (entries.foldl (fun coins entry => coins.insert entry.1 entry.2) coins)
      = coins.worth + (entries.map (·.2.worth)).sum - (ledger coins).overwritten entries := by
  induction entries generalizing coins with
  | nil => simp [overwritten]
  | cons entry rest ih =>
    have ht := CoinMap.total_insert Coin.worth coins entry.1 entry.2
    rw [weightAt_worth] at ht
    rw [List.foldl_cons, ih, CoinMap.worth, ht, List.map_cons, List.sum_cons,
      CoinView.overwritten, addCoin, CoinMap.worth]
    omega

theorem worth_eraseAll (coins : CoinMap) {points : List OutPoint} (hn : points.Nodup) :
    CoinMap.worth (points.foldl (fun coins point => coins.erase point) coins)
      = coins.worth - (points.map (ledger coins).valueAt).sum := by
  have hw : coins.weightAt Coin.worth = (ledger coins).valueAt := funext (weightAt_worth coins)
  rw [CoinMap.worth, CoinMap.total_eraseAll Coin.worth coins hn, hw, CoinMap.worth]

theorem sum_worth_created (tx : Transaction) :
    (tx.created.map (·.2.worth)).sum = (tx.outputs.map (·.value.toInt)).sum := by
  have hm : tx.created.map (·.2.worth) = tx.outputs.map (·.value.toInt) := by
    rw [Transaction.created, List.map_map]
    conv => rhs; rw [← List.zipIdx_map_fst 0 tx.outputs, List.map_map]
    rfl
  rw [hm]

/-- One transaction that is sound by itself and verified. -/
theorem worth_update {coins : CoinMap} {tx : Transaction} (hk : tx.check = .valid)
    (hv : (ledger coins).verify tx = .valid) :
    CoinMap.worth (coins.update tx) = coins.worth + tx.minted - (ledger coins).feeOf tx
      - (tx.prevouts.foldl spendCoin (ledger coins)).overwritten tx.created := by
  have he := worth_eraseAll coins (Transaction.nodup_prevouts_of_check hk)
  rw [CoinMap.update, worth_insertAll, he, sum_worth_created, spendCoins_ledger,
    Transaction.minted, feeOf]
  cases hc : tx.isCoinbase with
  | true =>
    simp only [if_true, Transaction.prevouts_of_isCoinbase hc, List.map_nil, List.sum_nil]
    omega
  | false =>
    obtain ⟨⟨left, hl⟩, _⟩ := (verify_eq_valid_iff hc).mp hv
    obtain ⟨hd, _⟩ := toInt_inputFee hc hl
    simp only [Bool.false_eq_true, if_false, checkInputs_snd hl, hd]
    omega

theorem worth_process {coins after : CoinMap} {txs : List Transaction}
    (hk : ∀ tx ∈ txs, tx.check = .valid)
    (h : (ledger coins).process txs = .ok (ledger after)) :
    after.worth = coins.worth + (txs.map (·.minted)).sum - (ledger coins).fees txs
      - (ledger coins).lost txs := by
  induction txs generalizing coins with
  | nil =>
    cases h
    simp [fees, lost]
  | cons tx rest ih =>
    obtain ⟨hv, hr⟩ := process_cons_iff.mp h
    rw [update_ledger] at hr
    have hu := worth_update (hk tx List.mem_cons_self) hv
    have hi := ih (fun other hm => hk other (List.mem_cons_of_mem tx hm)) hr
    rw [List.map_cons, List.sum_cons, fees, lost, update_ledger]
    omega

namespace CoinView

theorem feeOf_nonneg (view : CoinView) (tx : Transaction) : 0 ≤ view.feeOf tx := by
  rw [feeOf]
  cases hc : tx.isCoinbase with
  | true => simp
  | false =>
    rw [checkInputs]
    cases hf : view.inputFee tx with
    | error reason => simp
    | ok left => simpa using (toInt_inputFee hc hf).2

theorem fees_nonneg (view : CoinView) (txs : List Transaction) : 0 ≤ view.fees txs := by
  induction txs generalizing view with
  | nil => simp [fees]
  | cons tx rest ih =>
    have hf := view.feeOf_nonneg tx
    have hr := ih (view.update tx)
    rw [fees]
    omega

namespace InRange
variable {view : CoinView}

theorem valueAt_nonneg (h : view.InRange) (point : OutPoint) : 0 ≤ view.valueAt point := by
  rw [valueAt]
  cases hc : view.coin? point with
  | none => simp
  | some coin => exact ((inMoneyRange_iff coin.value).mp (h point coin hc)).1

theorem overwritten_nonneg (h : view.InRange) {entries : List (OutPoint × Coin)}
    (hv : ∀ entry ∈ entries, inMoneyRange entry.2.value = true) :
    0 ≤ view.overwritten entries := by
  induction entries generalizing view with
  | nil => simp [overwritten]
  | cons entry rest ih =>
    have he := h.valueAt_nonneg entry.1
    have hr := ih (h.addCoin entry.1 (hv entry List.mem_cons_self))
      fun other hm => hv other (List.mem_cons_of_mem entry hm)
    rw [overwritten]
    omega

end InRange
end CoinView

theorem lost_nonneg {view : CoinView} (h : view.InRange) {txs : List Transaction}
    (hk : ∀ tx ∈ txs, tx.check = .valid) : 0 ≤ view.lost txs := by
  induction txs generalizing view with
  | nil => simp [lost]
  | cons tx rest ih =>
    have ht := hk tx List.mem_cons_self
    have ho := (h.spendCoins tx.prevouts).overwritten_nonneg
      fun _ he => inMoneyRange_of_mem_created ht he
    have hr := ih (h.update ht) fun other hm => hk other (List.mem_cons_of_mem tx hm)
    rw [lost]
    omega

/-- Only the coinbase of a sound block makes money. -/
theorem sum_minted {outputs : List Output} {rest : List Transaction}
    (hc : ∀ tx ∈ rest, tx.isCoinbase = false) :
    ((Transaction.coinbase outputs :: rest).map (·.minted)).sum
      = (outputs.map (·.value.toInt)).sum := by
  have hr : rest.map (·.minted) = rest.map fun _ => 0 := by
    apply List.map_congr_left
    intro tx hm
    simp [Transaction.minted, hc tx hm]
  rw [List.map_cons, List.sum_cons, hr]
  simp [Transaction.minted, Transaction.isCoinbase, Transaction.outputs]

/-- What the ledger is worth after an accepted block: as much as before and as the coinbase makes,
less the fees and less the coins that others were put in the place of. Fees and losses are taken
against the overlay that the block is worked through on. -/
theorem connect_accounts {coins : CoinMap} {block : Block} (hr : (ledger coins).InRange)
    (h : ((ledger coins).connect block).1 = .valid) :
    ∃ after outputs rest sum, (ledger coins).connect block = (.valid, ledger after)
      ∧ block.transactions = .coinbase outputs :: rest
      ∧ (Transaction.coinbase outputs).valueOut = some sum
      ∧ sum.toInt = (outputs.map (·.value.toInt)).sum
      ∧ after.worth = coins.worth + (outputs.map (·.value.toInt)).sum
          - (ledger coins).layer.fees block.transactions
          - (ledger coins).layer.lost block.transactions
      ∧ after.worth ≤ coins.worth + sum.toInt := by
  have hv : (ledger coins).connect block = (.valid, ((ledger coins).connect block).2) :=
    Prod.ext h rfl
  obtain ⟨hk, hp⟩ := connect_ledger_eq_valid_iff.mp hv
  obtain ⟨after, _, ha⟩ := ledger_of_process hp
  obtain ⟨_, hc, ht⟩ := Block.check_eq_valid_iff.mp hk
  obtain ⟨outputs, rest, hb, hn⟩ := checkCoinbase_eq_valid_iff.mp hc
  have hs := checkTransactions_eq_valid_iff.mp ht
  obtain ⟨sum, ho⟩ := Transaction.valueOut_of_check (hs (.coinbase outputs) (by simp [hb]))
  have hw := worth_process hs (by rw [hp, ha])
  have hl : (ledger coins).layer.Agree (ledger coins) := (Agree.refl _).layer
  have hf := (ledger coins).layer.fees_nonneg block.transactions
  have hg : (ledger coins).layer.InRange := fun point coin he => hr point coin (by rwa [← hl])
  have h0 := lost_nonneg hg hs
  have hm := toInt_valueOut ho
  simp only [Transaction.outputs] at hm
  rw [hb, sum_minted hn, ← hb, ← hl.fees, ← hl.lost] at hw
  refine ⟨after, outputs, rest, sum, by rw [hv, ha], hb, ho, hm, hw, ?_⟩
  omega

/-- Two coins, one of them where the reward of 50 is going to be put. -/
def coinUnderReward : CoinMap :=
  ((∅ : CoinMap).insert ⟨sha256 [1], 0⟩ ⟨⟨7, []⟩, false, false⟩).insert
    ⟨(rewardCoinbase [] 50).id, 0⟩ ⟨⟨50, []⟩, true, false⟩

/-- A block that spends the other one and leaves a fee of two. -/
def rewardWithFee : Block :=
  Block.assemble [] 50 [.spend [⟨⟨sha256 [1], 0⟩, ⟨[], [1]⟩⟩] [⟨5, []⟩]] (sha256 []) 0

theorem rewardWithFee_accounts :
    ((ledger coinUnderReward).connect rewardWithFee).1 = .valid
      ∧ ∃ after, (ledger coinUnderReward).connect rewardWithFee = (.valid, ledger after)
        ∧ after.worth = coinUnderReward.worth + 50 - 2 - 50 := by
  have hv : ((ledger coinUnderReward).connect rewardWithFee).1 = .valid := by decide +kernel
  have hr : (ledger coinUnderReward).InRange := by
    intro point coin hc
    simp only [coin?, coinUnderReward, ExtTreeMap.getElem?_insert] at hc
    split at hc
    · cases (Option.filter_eq_some_iff.mp hc).1
      rfl
    · split at hc
      · cases (Option.filter_eq_some_iff.mp hc).1
        rfl
      · simp at hc
  obtain ⟨after, outputs, rest, sum, ha, hb, _, _, hw, _⟩ := connect_accounts hr hv
  have hf : (ledger coinUnderReward).layer.fees rewardWithFee.transactions = 2 := by
    decide +kernel
  have hl : (ledger coinUnderReward).layer.lost rewardWithFee.transactions = 50 := by
    decide +kernel
  have ho : outputs = [⟨50, []⟩] := (Transaction.coinbase.inj (List.cons.inj hb).1).symm
  refine ⟨hv, after, ha, ?_⟩
  rw [hw, hf, hl, ho]
  rfl

end CoinLedger

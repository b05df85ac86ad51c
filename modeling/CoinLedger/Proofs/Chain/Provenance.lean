import CoinLedger.Block.Mining
import CoinLedger.Proofs.Chain.History
import CoinLedger.Proofs.Value.Range
import CoinLedger.Proofs.View.Layers

/-! What a run of blocks can leave in a ledger. No entry is marked as spent, since a commit takes
such entries out; and every coin is an output of an accepted transaction, put at the place that the
transaction and the position of the output name, with a value that passed the check. -/
namespace CoinLedger
open CoinView Std

/-- The coin is output `i` of the transaction, at the place where that output goes: positions are
counted in the width of an index. -/
structure MadeAs (tx : Transaction) (i : Nat) (point : OutPoint) (coin : Coin) : Prop where
  txid_eq : tx.id = point.txid
  index_eq : i % UInt32.size = point.index.toNat
  output_at : tx.outputs[i]? = some coin.output
  isCoinbase_eq : coin.isCoinbase = tx.isCoinbase

theorem mem_created_iff {tx : Transaction} {point : OutPoint} {coin : Coin} :
    (point, coin) ∈ tx.created ↔ coin.spent = false ∧ ∃ i, MadeAs tx i point coin := by
  rw [Transaction.created, List.mem_map]
  constructor
  · rintro ⟨⟨output, i⟩, hm, he⟩
    cases he
    have hi := List.mk_mem_zipIdx_iff_getElem?.mp hm
    exact ⟨rfl, i, rfl, UInt32.toNat_ofNat'.symm, hi, rfl⟩
  · rintro ⟨hs, i, ht, hx, ho, hb⟩
    refine ⟨(coin.output, i), List.mk_mem_zipIdx_iff_getElem?.mpr ho, ?_⟩
    have hw : UInt32.ofNat i = point.index := by
      apply UInt32.toNat_inj.mp
      rw [UInt32.toNat_ofNat', ← hx]
    simp only [ht, hw, ← hb, ← hs]

namespace CoinMap

theorem unspent_empty : Unspent ∅ := by
  intro point coin hc
  simp at hc

/-- Where no entry is marked as spent, the size of a map is the number of its visible coins. -/
theorem Unspent.size_eq_countP {coins : CoinMap} (h : coins.Unspent) :
    coins.size = coins.toList.countP fun entry => (ledger coins).hasCoin entry.1 := by
  have ha : ∀ entry ∈ coins.toList, (ledger coins).hasCoin entry.1 = true := by
    rintro ⟨point, coin⟩ hm
    have hc := ExtTreeMap.mem_toList_iff_getElem?_eq_some.mp hm
    rw [hasCoin, coin?_ledger_of_unspent h, hc]
    rfl
  rw [List.countP_eq_length.mpr ha, ExtTreeMap.length_toList]

end CoinMap

/-- A run from nothing leaves no entry marked as spent. -/
theorem unspent_connectAll (blocks : List Block) :
    ∃ coins : CoinMap, empty.connectAll blocks = ledger coins ∧ coins.Unspent := by
  obtain ⟨after, hp, hl⟩ := ledger_of_process (process_acceptedTxs ∅ blocks).1
  exact ⟨after, hl, CoinMap.unspent_empty.process hp⟩

/-- A coin that a run from nothing leaves was made by a transaction that the run accepted. -/
theorem created_of_connectAll {blocks : List Block} {point : OutPoint} {coin : Coin}
    (h : (empty.connectAll blocks).coin? point = some coin) :
    ∃ tx ∈ empty.acceptedTxs blocks, (point, coin) ∈ tx.created := by
  have hp : empty.process (empty.acceptedTxs blocks) = .ok (empty.connectAll blocks) :=
    (process_acceptedTxs ∅ blocks).1
  rw [← foldl_of_process hp] at h
  cases origin_of_coin? h with
  | inl hl =>
    rw [coin?_empty] at hl
    cases hl.1
  | inr hr =>
    obtain ⟨k, maker, hk, hm, _⟩ := hr
    exact ⟨maker, List.mem_of_getElem? hk, hm⟩

/-- Whatever blocks are connected in turn to the empty ledger, every entry of the ledger in the end
is a coin that is not spent, of a value in the money range, and an output of a transaction in an
accepted block. So the size of the ledger is the number of coins that can be spent. -/
theorem entries_are_accepted_outputs (blocks : List Block) :
    ∃ coins : CoinMap, empty.connectAll blocks = ledger coins
      ∧ (coins.size = coins.toList.countP fun entry => (ledger coins).hasCoin entry.1)
      ∧ ∀ (point : OutPoint) (coin : Coin), coins[point]? = some coin →
        coin.spent = false
          ∧ (0 ≤ coin.value.toInt ∧ coin.value.toInt ≤ maxMoney.toInt)
          ∧ ∃ block ∈ empty.accepted blocks, ∃ tx ∈ block.transactions, ∃ i,
            MadeAs tx i point coin := by
  obtain ⟨coins, hl, hu⟩ := unspent_connectAll blocks
  refine ⟨coins, hl, hu.size_eq_countP, ?_⟩
  intro point coin hc
  have hv : (empty.connectAll blocks).coin? point = some coin := by
    rw [hl, coin?_ledger_of_unspent hu, hc]
  obtain ⟨tx, hm, hmade⟩ := created_of_connectAll hv
  have hk : tx.check = .valid := check_of_mem_acceptedTxs hm
  have hr := inMoneyRange_of_mem_created hk hmade
  obtain ⟨hs, i, hi⟩ := mem_created_iff.mp hmade
  obtain ⟨block, hb, ht⟩ := List.mem_flatMap.mp hm
  exact ⟨hs, (inMoneyRange_iff coin.value).mp hr, block, hb, tx, ht, i, hi⟩

/-- The reward of 50 in two parts. -/
def splitReward : Transaction :=
  .spend [⟨⟨(rewardCoinbase [] 50).id, 0⟩, ⟨[], [1]⟩⟩] [⟨30, []⟩, ⟨20, []⟩]

/-- A reward, a reward above the money range, and a block that divides the first reward. -/
def splitRun : List Block :=
  [Block.assemble [] 50 [] (sha256 []) 0, Block.assemble [] (maxMoney + 1) [] (sha256 []) 0,
    Block.assemble [] 49 [splitReward] (sha256 []) 0]

theorem splitRun_second_part :
    ∃ coins : CoinMap, empty.connectAll splitRun = ledger coins
      ∧ coins[(⟨splitReward.id, 1⟩ : OutPoint)]? = some ⟨⟨20, []⟩, false, false⟩
      ∧ ∃ block ∈ empty.accepted splitRun, ∃ tx ∈ block.transactions, ∃ i,
        MadeAs tx i ⟨splitReward.id, 1⟩ ⟨⟨20, []⟩, false, false⟩ := by
  have hv : (empty.connectAll splitRun).coin? ⟨splitReward.id, 1⟩
      = some ⟨⟨20, []⟩, false, false⟩ := by
    decide +kernel
  obtain ⟨coins, hl, _, hall⟩ := entries_are_accepted_outputs splitRun
  rw [hl, coin?] at hv
  have hc := (Option.filter_eq_some_iff.mp hv).1
  exact ⟨coins, hl, hc, (hall _ _ hc).2.2⟩

end CoinLedger

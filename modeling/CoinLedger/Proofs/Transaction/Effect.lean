import CoinLedger.Proofs.Chain.Provenance
import CoinLedger.Proofs.Transaction.Funding
import CoinLedger.Proofs.Transaction.Structure

/-! What one transaction does to a view, place by place, and what the next one can do with it. As
long as positions fit in the width of an index, every output has a place of its own, and it wins
over whatever was spent or visible there. So the outputs of a sound transaction can all be spent
together, and are worth then what they were worth when they were checked. -/
namespace CoinLedger
open CoinView

namespace Transaction

/-- The coin that a transaction puts at a place. -/
def coinAt? (tx : Transaction) (point : OutPoint) : Option Coin :=
  if point.txid = tx.id then
    tx.outputs[point.index.toNat]?.map fun output => ⟨output, tx.isCoinbase, false⟩
  else none

section Width
variable {tx : Transaction} (h : tx.outputs.length ≤ UInt32.size)
include h

theorem coinAt?_eq_some_iff {point : OutPoint} {coin : Coin} :
    tx.coinAt? point = some coin ↔ (point, coin) ∈ tx.created := by
  rw [mem_created_iff]
  constructor
  · intro hc
    rw [coinAt?] at hc
    split at hc
    · rename_i ht
      obtain ⟨output, ho, rfl⟩ := Option.map_eq_some_iff.mp hc
      exact ⟨rfl, point.index.toNat, ht.symm, Nat.mod_eq_of_lt point.index.toNat_lt, ho, rfl⟩
    · cases hc
  · rintro ⟨hs, i, hi⟩
    have hlt : i < tx.outputs.length := (List.getElem?_eq_some_iff.mp hi.output_at).1
    have hx := hi.index_eq
    rw [Nat.mod_eq_of_lt (by omega)] at hx
    rw [coinAt?, if_pos hi.txid_eq.symm, ← hx, hi.output_at, Option.map_some, ← hi.isCoinbase_eq,
      ← hs]

theorem lastAt_created (point : OutPoint) : lastAt point tx.created = tx.coinAt? point := by
  cases hc : tx.coinAt? point with
  | some coin => exact lastAt_of_mem (pairwise_created h) ((coinAt?_eq_some_iff h).mp hc)
  | none =>
    apply lastAt_eq_none_iff.mpr
    rintro ⟨place, coin⟩ hm rfl
    rw [(coinAt?_eq_some_iff h).mpr hm] at hc
    cases hc

end Width

/-- The place of the output at a position. -/
theorem coinAt?_place {tx : Transaction} {i : Nat} (hi : i < tx.outputs.length)
    (h : tx.outputs.length ≤ UInt32.size) :
    tx.coinAt? ⟨tx.id, UInt32.ofNat i⟩ = some ⟨tx.outputs[i], tx.isCoinbase, false⟩ := by
  have hx : (UInt32.ofNat i).toNat = i := UInt32.toNat_ofNat_of_lt' (Nat.lt_of_lt_of_le hi h)
  rw [coinAt?, if_pos rfl, hx, List.getElem?_eq_getElem hi, Option.map_some]

end Transaction
open Transaction

namespace CoinView

theorem coin?_update_of_width (view : CoinView) {tx : Transaction}
    (h : tx.outputs.length ≤ UInt32.size) (point : OutPoint) :
    (view.update tx).coin? point
      = (tx.coinAt? point).or (if point ∈ tx.prevouts then none else view.coin? point) := by
  rw [coin?_update, lastAt_created h]
  cases hc : tx.coinAt? point with
  | none => rfl
  | some coin =>
    have hs : coin.spent = false := spent_of_mem_created ((coinAt?_eq_some_iff h).mp hc)
    rw [settle, hs, Option.some_or]
    rfl

section Outputs
variable (view : CoinView) {tx : Transaction} (h : tx.outputs.length ≤ UInt32.size)
include h

theorem coin?_update_place {i : Nat} (hi : i < tx.outputs.length) :
    (view.update tx).coin? ⟨tx.id, UInt32.ofNat i⟩
      = some ⟨tx.outputs[i], tx.isCoinbase, false⟩ := by
  rw [coin?_update_of_width view h, coinAt?_place hi h, Option.some_or]

theorem sees_made : (view.update tx).Sees tx.made := by
  intro point hm
  rw [made_eq] at hm
  obtain ⟨i, hi, rfl⟩ := List.mem_map.mp hm
  exact ⟨_, coin?_update_place view h (List.mem_range.mp hi)⟩

/-- The coins that a transaction makes are worth, one by one, what its outputs are. -/
theorem map_valueAt_made :
    tx.made.map (view.update tx).valueAt = tx.outputs.map (·.value.toInt) := by
  rw [made_eq, List.map_map]
  apply List.ext_getElem
  · simp
  · intro i hi _
    have hlt : i < tx.outputs.length := by simpa using hi
    simp [valueAt, coin?_update_place view h hlt, Coin.value]

theorem worthAt_made : (view.update tx).worthAt tx.made = worthOf tx.outputs := by
  rw [worthAt, map_valueAt_made view h, worthOf]

theorem coinsWithin_made (hk : tx.check = .valid) : (view.update tx).CoinsWithin tx.made := by
  have hs := check_eq_valid_iff_sound.mp hk
  refine ⟨?_, ?_⟩
  · intro point hm
    have hv : (view.update tx).valueAt point ∈ tx.outputs.map (·.value.toInt) := by
      rw [← map_valueAt_made view h]
      exact List.mem_map_of_mem hm
    obtain ⟨output, ho, he⟩ := List.mem_map.mp hv
    rw [← he]
    exact hs.inRange output ho
  · rw [worthAt_made view h]
    exact hs.total_le

end Outputs
end CoinView

/-- What can be read at any place of any view after a transaction: the coin that it puts there, or
nothing where it only spends, be the place named once or more often and with or without a coin, or
else what was there before. The views beneath stay as they are. -/
theorem update_decided_by_place (view : CoinView) (tx : Transaction)
    (h : tx.outputs.length ≤ UInt32.size) :
    (∀ point, (view.update tx).coin? point
        = (tx.coinAt? point).or (if point ∈ tx.prevouts then none else view.coin? point))
      ∧ (view.update tx).beneath = view.beneath :=
  ⟨coin?_update_of_width view h, beneath_update view tx⟩

/-- A spend that names one place twice, and another one where there is no coin. -/
def namesTwice : Transaction :=
  .spend [⟨⟨sha256 [1], 0⟩, .empty⟩, ⟨⟨sha256 [1], 0⟩, .empty⟩, ⟨⟨sha256 [4], 0⟩, .empty⟩]
    [⟨3, []⟩, ⟨4, []⟩]

theorem namesTwice_decided :
    namesTwice.outputs.length ≤ UInt32.size
      ∧ ((ledger oddCoins).layer.update namesTwice).coin? ⟨namesTwice.id, 1⟩
        = some ⟨⟨4, []⟩, false, false⟩
      ∧ ((ledger oddCoins).layer.update namesTwice).coin? ⟨namesTwice.id, 2⟩ = none
      ∧ ((ledger oddCoins).layer.update namesTwice).coin? ⟨sha256 [1], 0⟩ = none
      ∧ ((ledger oddCoins).layer.update namesTwice).coin? ⟨sha256 [2], 0⟩
        = some ⟨⟨8, [.select]⟩, false, false⟩
      ∧ ((ledger oddCoins).layer.update namesTwice).beneath = [ledger oddCoins] := by
  have hl : namesTwice.outputs.length ≤ UInt32.size := by decide
  obtain ⟨hc, hb⟩ := update_decided_by_place (ledger oddCoins).layer namesTwice hl
  rw [hc, hc, hc, hc, hb]
  refine ⟨hl, ?_, ?_, ?_, ?_, rfl⟩
  all_goals decide +kernel

/-- After a sound transaction, a spend that names each of its outputs once, in any order, finds all
of them, and they are worth together what the transaction paid out. -/
theorem outputs_spend_in_full (view : CoinView) (tx : Transaction) (hk : tx.check = .valid)
    (h : tx.outputs.length ≤ UInt32.size) :
    ∃ total, tx.valueOut = some total ∧ ∀ inputs outputs,
      (inputs.map (·.prevout)).Perm
          ((List.range tx.outputs.length).map fun i => ⟨tx.id, UInt32.ofNat i⟩) →
        (view.update tx).hasInputs (.spend inputs outputs) = true
          ∧ (view.update tx).valueIn (.spend inputs outputs) = .ok total := by
  obtain ⟨total, ht⟩ := valueOut_of_check hk
  refine ⟨total, ht, ?_⟩
  intro inputs outputs hp
  rw [← made_eq] at hp
  have hs : (view.update tx).Sees (Transaction.spend inputs outputs).prevouts :=
    (sees_perm hp).mpr (sees_made view h)
  refine ⟨hasInputs_iff_sees.mpr hs, ?_⟩
  obtain ⟨_, sum, hv, he⟩ | ⟨hn, _⟩ := valueIn_cases hs
  · have hworth : sum.toInt = total.toInt := by
      rw [he, (valueOut_eq_some_iff.mp ht).2, ← worthAt_made view h]
      exact worthAt_perm hp
    rw [hv, Int64.toInt_inj.mp hworth]
  · exact absurd ((coinsWithin_perm hp).mpr (coinsWithin_made view h hk)) hn

/-- A spend with two outputs, and one that names both, the second first. -/
def splitInTwo : Transaction := .spend spendFaulty [⟨9, []⟩, ⟨4, []⟩]

def joinAgain : List Input :=
  [⟨⟨splitInTwo.id, 1⟩, .empty⟩, ⟨⟨splitInTwo.id, 0⟩, .empty⟩]

theorem splitInTwo_spent_in_full :
    splitInTwo.check = .valid ∧ splitInTwo.outputs.length ≤ UInt32.size
      ∧ ((ledger oddCoins).layer.update splitInTwo).hasInputs (.spend joinAgain []) = true
      ∧ ((ledger oddCoins).layer.update splitInTwo).valueIn (.spend joinAgain []) = .ok 13 := by
  have hk : splitInTwo.check = .valid := by decide +kernel
  have hl : splitInTwo.outputs.length ≤ UInt32.size := by decide
  have hv : splitInTwo.valueOut = some 13 := by decide +kernel
  obtain ⟨total, ht, hall⟩ := outputs_spend_in_full (ledger oddCoins).layer splitInTwo hk hl
  obtain rfl : 13 = total := Option.some.inj (hv.symm.trans ht)
  exact ⟨hk, hl, hall joinAgain [] (.swap _ _ _)⟩

end CoinLedger

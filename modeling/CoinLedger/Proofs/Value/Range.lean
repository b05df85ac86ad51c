import CoinLedger.Proofs.Block.Checked
import CoinLedger.Proofs.View.Lookup

/-! Views whose coins have values in the money range, and what keeps them so. -/
namespace CoinLedger

namespace CoinView

/-- Every coin that can be spent has a value in the money range. -/
def InRange (view : CoinView) : Prop :=
  ∀ point coin, view.coin? point = some coin → inMoneyRange coin.value = true

namespace InRange
variable {view : CoinView}

theorem addCoin (h : view.InRange) (point : OutPoint) {coin : Coin}
    (hv : inMoneyRange coin.value = true) : (view.addCoin point coin).InRange := by
  intro other found hf
  rw [coin?_addCoin] at hf
  split at hf
  · split at hf
    · cases hf
    · cases hf
      exact hv
  · exact h other found hf

theorem spendCoins (h : view.InRange) (points : List OutPoint) :
    (points.foldl CoinView.spendCoin view).InRange := by
  intro point coin hc
  rw [coin?_spendCoins] at hc
  split at hc
  · cases hc
  · exact h point coin hc

theorem addEntries (h : view.InRange) {entries : List (OutPoint × Coin)}
    (hv : ∀ entry ∈ entries, inMoneyRange entry.2.value = true) :
    (entries.foldl (fun view entry => view.addCoin entry.1 entry.2) view).InRange := by
  induction entries generalizing view with
  | nil => exact h
  | cons entry rest ih =>
    exact ih (h.addCoin entry.1 (hv entry List.mem_cons_self))
      fun other hm => hv other (List.mem_cons_of_mem entry hm)

end InRange
end CoinView

theorem inMoneyRange_of_mem_created {tx : Transaction} (hk : tx.check = .valid)
    {entry : OutPoint × Coin} (h : entry ∈ tx.created) :
    inMoneyRange entry.2.value = true := by
  obtain ⟨⟨output, index⟩, hm, rfl⟩ := List.mem_map.mp h
  exact Transaction.inMoneyRange_of_check hk output (List.fst_mem_of_mem_zipIdx hm)

theorem CoinView.InRange.update {view : CoinView} (h : view.InRange) {tx : Transaction}
    (hk : tx.check = .valid) : (view.update tx).InRange :=
  (h.spendCoins tx.prevouts).addEntries fun _ he => inMoneyRange_of_mem_created hk he

end CoinLedger

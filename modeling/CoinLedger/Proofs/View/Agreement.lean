import CoinLedger.Block.Connect
import CoinLedger.Proofs.View.Lookup

/-! Views that answer alike. The rules for a transaction read a view at its prevouts only, so two
views that agree there give one verdict; and views that agree everywhere still do after the same
transactions, whatever layers they are made of. -/
namespace CoinLedger.CoinView
variable {v w : CoinView} {tx : Transaction}

/-- Two views hold the same coin, or none, at every place. -/
def Agree (v w : CoinView) : Prop := ∀ point, v.coin? point = w.coin? point

theorem hasInputs_congr (h : ∀ point ∈ tx.prevouts, v.coin? point = w.coin? point) :
    v.hasInputs tx = w.hasInputs tx := by
  rw [Bool.eq_iff_iff, hasInputs, hasInputs, List.all_eq_true, List.all_eq_true]
  constructor
  · intro hv point hp
    rw [hasCoin, ← h point hp]
    exact hv point hp
  · intro hw point hp
    rw [hasCoin, h point hp]
    exact hw point hp

theorem addValueAt_congr {point : OutPoint} (h : v.coin? point = w.coin? point) (total : Amount) :
    v.addValueAt total point = w.addValueAt total point := by
  rw [addValueAt, addValueAt, h]

theorem foldlM_addValueAt_congr {points : List OutPoint}
    (h : ∀ point ∈ points, v.coin? point = w.coin? point) (total : Amount) :
    points.foldlM v.addValueAt total = points.foldlM w.addValueAt total := by
  induction points generalizing total with
  | nil => rfl
  | cons point rest ih =>
    have hr := ih fun other hm => h other (List.mem_cons_of_mem point hm)
    rw [List.foldlM_cons, List.foldlM_cons, addValueAt_congr (h point List.mem_cons_self)]
    exact congrArg _ (funext hr)

theorem inputFee_congr (h : ∀ point ∈ tx.prevouts, v.coin? point = w.coin? point) :
    v.inputFee tx = w.inputFee tx := by
  have hv : v.valueIn tx = w.valueIn tx := foldlM_addValueAt_congr h 0
  rw [inputFee, inputFee, hasInputs_congr h, hv]

theorem checkInputs_congr (h : ∀ point ∈ tx.prevouts, v.coin? point = w.coin? point) :
    v.checkInputs tx = w.checkInputs tx := by
  rw [checkInputs, checkInputs, inputFee_congr h]

theorem checkScriptsFrom_congr {inputs : List Input}
    (h : ∀ input ∈ inputs, v.coin? input.prevout = w.coin? input.prevout) (index : Nat) :
    v.checkScriptsFrom tx index inputs = w.checkScriptsFrom tx index inputs := by
  induction inputs generalizing index with
  | nil => rfl
  | cons input rest ih =>
    have hr := ih fun other hm => h other (List.mem_cons_of_mem input hm)
    rw [checkScriptsFrom, checkScriptsFrom, h input List.mem_cons_self, hr]

/-- The verdict on a transaction is a matter of the coins at its prevouts. -/
theorem verify_congr (h : ∀ point ∈ tx.prevouts, v.coin? point = w.coin? point) :
    v.verify tx = w.verify tx := by
  have hs : v.checkScripts tx = w.checkScripts tx :=
    checkScriptsFrom_congr (fun _ hm => h _ (List.mem_map_of_mem hm)) 0
  rw [verify, verify, checkInputs_congr h, hs]

namespace Agree

theorem refl (v : CoinView) : v.Agree v := fun _ => rfl

theorem layer (h : v.Agree w) : v.layer.Agree w :=
  fun point => (v.coin?_layer point).trans (h point)

theorem addCoin (h : v.Agree w) (point : OutPoint) (coin : Coin) :
    (v.addCoin point coin).Agree (w.addCoin point coin) := by
  intro other
  rw [coin?_addCoin, coin?_addCoin, h other]

theorem spendCoin (h : v.Agree w) (point : OutPoint) :
    (v.spendCoin point).Agree (w.spendCoin point) := by
  intro other
  rw [coin?_spendCoin, coin?_spendCoin, h other]

theorem spendCoins (h : v.Agree w) (points : List OutPoint) :
    (points.foldl CoinView.spendCoin v).Agree (points.foldl CoinView.spendCoin w) := by
  intro point
  rw [coin?_spendCoins, coin?_spendCoins, h point]

theorem update (h : v.Agree w) (tx : Transaction) : (v.update tx).Agree (w.update tx) := by
  intro point
  rw [coin?_update, coin?_update, h point]

theorem verify (h : v.Agree w) (tx : Transaction) : v.verify tx = w.verify tx :=
  verify_congr fun point _ => h point

end Agree

theorem process_cons_iff {view done : CoinView} {rest : List Transaction} :
    view.process (tx :: rest) = .ok done
      ↔ view.verify tx = .valid ∧ (view.update tx).process rest = .ok done := by
  rw [process]
  cases view.verify tx with
  | invalid reason => simp
  | valid => simp

/-- Both stopped for the same reason, or both done and in agreement. -/
def SameOutcome : Except RejectReason CoinView → Except RejectReason CoinView → Prop
  | .error reason, .error other => reason = other
  | .ok done, .ok other => done.Agree other
  | _, _ => False

/-- Views that agree refuse the same transaction of a list, or take in all and agree afterwards. -/
theorem Agree.process (h : v.Agree w) (txs : List Transaction) :
    SameOutcome (v.process txs) (w.process txs) := by
  induction txs generalizing v w with
  | nil => exact h
  | cons tx rest ih =>
    rw [CoinView.process, CoinView.process, h.verify tx]
    cases w.verify tx with
    | valid => exact ih (h.update tx)
    | invalid reason => exact rfl

theorem Agree.process_ok (h : v.Agree w) {txs : List Transaction} {done : CoinView}
    (hp : w.process txs = .ok done) : ∃ other, v.process txs = .ok other ∧ other.Agree done := by
  have hs := h.process txs
  rw [hp] at hs
  cases hv : v.process txs with
  | ok other =>
    rw [hv] at hs
    exact ⟨other, rfl, hs⟩
  | error reason =>
    rw [hv] at hs
    exact hs.elim

end CoinLedger.CoinView

import Mathlib.Algebra.Ring.Int.Defs
import CoinLedger.Proofs.View.Valid

/-! The guarded sums of money are exact: where a partial sum never leaves the range, the answer is
the sum of the integers, and the fee is their difference. -/
namespace CoinLedger

theorem toInt_addMoney {total value next : Amount} (h : addMoney total value = some next) :
    next.toInt = total.toInt + value.toInt :=
  (toInt_of_amount? h).1

theorem toInt_foldlM_addMoney {values : List Amount} {total sum : Amount}
    (h : values.foldlM addMoney total = some sum) :
    sum.toInt = total.toInt + (values.map (·.toInt)).sum := by
  induction values generalizing total with
  | nil =>
    cases h
    simp
  | cons value rest ih =>
    rw [List.foldlM_cons] at h
    obtain ⟨next, hn, hr⟩ := Option.bind_eq_some_iff.mp h
    have hs := ih hr
    rw [toInt_addMoney hn] at hs
    rw [List.map_cons, List.sum_cons]
    omega

theorem range_foldlM_addMoney {values : List Amount} {total sum : Amount}
    (ht : 0 ≤ total.toInt ∧ total.toInt ≤ maxMoney.toInt)
    (h : values.foldlM addMoney total = some sum) :
    0 ≤ sum.toInt ∧ sum.toInt ≤ maxMoney.toInt := by
  induction values generalizing total with
  | nil =>
    cases h
    exact ht
  | cons value rest ih =>
    rw [List.foldlM_cons] at h
    obtain ⟨next, hn, hr⟩ := Option.bind_eq_some_iff.mp h
    obtain ⟨he, h0, hm⟩ := toInt_of_amount? hn
    exact ih (by rw [he]; exact ⟨h0, hm⟩) hr

theorem range_valueOut {tx : Transaction} {sum : Amount} (h : tx.valueOut = some sum) :
    0 ≤ sum.toInt ∧ sum.toInt ≤ maxMoney.toInt :=
  range_foldlM_addMoney (by decide) h

theorem toInt_valueOut {tx : Transaction} {sum : Amount} (h : tx.valueOut = some sum) :
    sum.toInt = (tx.outputs.map (·.value.toInt)).sum := by
  have hs := toInt_foldlM_addMoney h
  rw [List.map_map] at hs
  simpa [Function.comp_def] using hs

theorem toInt_fee {valueIn valueOut left : Amount} (h : fee valueIn valueOut = .ok left) :
    left.toInt = valueIn.toInt - valueOut.toInt ∧ 0 ≤ left.toInt := by
  rw [fee] at h
  split at h
  · cases h
  · cases ha : amount? (valueIn.toInt - valueOut.toInt) with
    | none => simp [ha] at h
    | some amount =>
      obtain ⟨he, h0, _⟩ := toInt_of_amount? ha
      simp only [ha, Except.ok.injEq] at h
      rw [← h, he]
      exact ⟨rfl, h0⟩

namespace CoinView
variable {view : CoinView}

/-- The exact value that can be spent at a place. -/
def valueAt (view : CoinView) (point : OutPoint) : Int :=
  match view.coin? point with
  | none => 0
  | some coin => coin.value.toInt

theorem toInt_addValueAt {total next : Amount} {point : OutPoint}
    (h : view.addValueAt total point = .ok next) :
    next.toInt = total.toInt + view.valueAt point := by
  rw [addValueAt] at h
  rw [valueAt]
  cases hc : view.coin? point with
  | none => simp [hc] at h
  | some coin =>
    simp only [hc] at h
    split at h
    · cases ha : addMoney total coin.value with
      | none => simp [ha] at h
      | some sum =>
        simp only [ha, Except.ok.injEq] at h
        rw [← h]
        exact toInt_addMoney ha
    · cases h

theorem toInt_foldlM_addValueAt {points : List OutPoint} {total sum : Amount}
    (h : points.foldlM view.addValueAt total = .ok sum) :
    sum.toInt = total.toInt + (points.map view.valueAt).sum := by
  induction points generalizing total with
  | nil =>
    cases h
    simp
  | cons point rest ih =>
    rw [List.foldlM_cons] at h
    cases hn : view.addValueAt total point with
    | error reason =>
      rw [hn] at h
      cases h
    | ok next =>
      rw [hn] at h
      have hs := ih h
      rw [toInt_addValueAt hn] at hs
      rw [List.map_cons, List.sum_cons]
      omega

theorem toInt_valueIn {tx : Transaction} {sum : Amount} (h : view.valueIn tx = .ok sum) :
    sum.toInt = (tx.prevouts.map view.valueAt).sum := by
  have hs := toInt_foldlM_addValueAt h
  simpa using hs

/-- The fee is what the spent coins are worth beyond the outputs, and never negative. -/
theorem toInt_inputFee {tx : Transaction} (hc : tx.isCoinbase = false) {left : Amount}
    (h : view.inputFee tx = .ok left) :
    left.toInt = (tx.prevouts.map view.valueAt).sum - (tx.outputs.map (·.value.toInt)).sum
      ∧ 0 ≤ left.toInt := by
  obtain ⟨_, valueIn, valueOut, hi, ho, hf⟩ := (inputFee_eq_ok_iff hc).mp h
  obtain ⟨he, h0⟩ := toInt_fee hf
  rw [toInt_valueIn hi, toInt_valueOut ho] at he
  exact ⟨he, h0⟩

theorem valueAt_congr {v w : CoinView} {point : OutPoint} (h : v.coin? point = w.coin? point) :
    v.valueAt point = w.valueAt point := by
  rw [valueAt, valueAt, h]

end CoinView
end CoinLedger

import CoinLedger.Ledger.Verify

/-! What a valid verdict on a transaction says about the view it was reached against. -/
namespace CoinLedger

theorem Transaction.prevouts_of_isCoinbase {tx : Transaction} (h : tx.isCoinbase = true) :
    tx.prevouts = [] := by
  cases tx with
  | coinbase outputs => rfl
  | spend inputs outputs => cases h

namespace CoinView
variable {view : CoinView} {tx : Transaction}

theorem inputFee_eq_ok_iff (hc : tx.isCoinbase = false) {left : Amount} :
    view.inputFee tx = .ok left ↔ view.hasInputs tx = true ∧ ∃ valueIn valueOut,
      view.valueIn tx = .ok valueIn ∧ tx.valueOut = some valueOut
        ∧ fee valueIn valueOut = .ok left := by
  simp only [inputFee, hc, Bool.false_eq_true, if_false]
  cases hi : view.hasInputs tx with
  | false => simp
  | true =>
    cases hv : view.valueIn tx with
    | error reason => simp
    | ok valueIn =>
      cases ho : tx.valueOut with
      | none => simp
      | some valueOut => simp

theorem checkInputs_snd {left : Amount} (h : view.inputFee tx = .ok left) :
    (view.checkInputs tx).2 = left := by
  rw [checkInputs, h]

theorem verify_eq_valid_iff (hc : tx.isCoinbase = false) :
    view.verify tx = .valid ↔ (∃ left, view.inputFee tx = .ok left)
      ∧ view.checkScripts tx = .valid := by
  simp only [verify, hc, Bool.false_eq_true, if_false, checkInputs]
  cases view.inputFee tx with
  | error reason => simp
  | ok left => simp

/-- Every input from position `index` on opens the lock of the coin that it names. -/
theorem opens_of_checkScriptsFrom {inputs : List Input} {index : Nat}
    (h : view.checkScriptsFrom tx index inputs = .valid) {k : Nat} {input : Input}
    (hk : inputs[k]? = some input) {coin : Coin} (hc : view.coin? input.prevout = some coin) :
    Script.opens input.unlock.script coin.output.lock tx (index + k) = .ok true := by
  induction inputs generalizing index k with
  | nil => cases hk
  | cons first rest ih =>
    rw [checkScriptsFrom] at h
    split at h
    · cases h
    · rename_i found hf
      split at h
      · rename_i ho
        cases k with
        | zero =>
          cases hk
          rw [hc] at hf
          cases hf
          exact ho
        | succ k =>
          have hr := ih h hk
          rwa [Nat.add_right_comm, Nat.add_assoc] at hr
      · cases h

theorem opens_of_verify (h : view.verify tx = .valid) {k : Nat} {input : Input}
    (hk : tx.inputs[k]? = some input) {coin : Coin} (hc : view.coin? input.prevout = some coin) :
    Script.opens input.unlock.script coin.output.lock tx k = .ok true := by
  cases tx with
  | coinbase outputs => cases hk
  | spend inputs outputs =>
    have hs := ((verify_eq_valid_iff rfl).mp h).2
    have ho := opens_of_checkScriptsFrom hs hk hc
    rwa [Nat.zero_add] at ho

/-- Every coin that a verified transaction spends is there. -/
theorem coin?_of_verify (h : view.verify tx = .valid) {point : OutPoint}
    (hp : point ∈ tx.prevouts) : ∃ coin, view.coin? point = some coin := by
  cases hc : tx.isCoinbase with
  | true =>
    rw [Transaction.prevouts_of_isCoinbase hc] at hp
    cases hp
  | false =>
    obtain ⟨⟨left, hl⟩, _⟩ := (verify_eq_valid_iff hc).mp h
    have hi := ((inputFee_eq_ok_iff hc).mp hl).1
    have hs := List.all_eq_true.mp hi point hp
    exact Option.isSome_iff_exists.mp hs

end CoinView
end CoinLedger

import CoinLedger.Block.Basic

/-! What the rules for a transaction and for a block by itself come to, read off the verdict. -/
namespace CoinLedger

theorem inMoneyRange_iff (value : Amount) :
    inMoneyRange value = true ↔ 0 ≤ value.toInt ∧ value.toInt ≤ maxMoney.toInt := by
  simp only [inMoneyRange, Bool.and_eq_true, decide_eq_true_eq, Int64.le_iff_toInt_le,
    Int64.toInt_zero]

theorem checkOutputs_cons_iff {total : Amount} {output : Output} {rest : List Output} :
    checkOutputs total (output :: rest) = .valid ↔ inMoneyRange output.value = true
      ∧ ∃ next, addMoney total output.value = some next ∧ checkOutputs next rest = .valid := by
  simp only [checkOutputs, inMoneyRange_iff, Int64.lt_iff_toInt_lt, Int64.toInt_zero]
  by_cases hl : output.value.toInt < 0
  · have hn : ¬0 ≤ output.value.toInt := by omega
    simp [hl, hn]
  · by_cases hu : maxMoney.toInt < output.value.toInt
    · have hn : ¬output.value.toInt ≤ maxMoney.toInt := by omega
      simp [hl, hu, hn]
    · have h0 : 0 ≤ output.value.toInt := by omega
      have hm : output.value.toInt ≤ maxMoney.toInt := by omega
      cases addMoney total output.value with
      | none => simp [hl, hu]
      | some next => simp [hl, hu, h0, hm]

theorem inMoneyRange_of_checkOutputs {total : Amount} {outputs : List Output}
    (h : checkOutputs total outputs = .valid) :
    ∀ output ∈ outputs, inMoneyRange output.value = true := by
  induction outputs generalizing total with
  | nil =>
    intro output hm
    cases hm
  | cons first rest ih =>
    obtain ⟨hf, next, _, hr⟩ := checkOutputs_cons_iff.mp h
    intro output hm
    cases List.mem_cons.mp hm with
    | inl he => rwa [he]
    | inr hm => exact ih hr output hm

theorem sum_of_checkOutputs {total : Amount} {outputs : List Output}
    (h : checkOutputs total outputs = .valid) :
    ∃ sum, (outputs.map (·.value)).foldlM addMoney total = some sum := by
  induction outputs generalizing total with
  | nil => exact ⟨total, rfl⟩
  | cons first rest ih =>
    obtain ⟨_, next, ha, hr⟩ := checkOutputs_cons_iff.mp h
    obtain ⟨sum, hs⟩ := ih hr
    refine ⟨sum, ?_⟩
    rw [List.map_cons, List.foldlM_cons, ha]
    exact hs

namespace Transaction
variable {tx : Transaction}

theorem check_eq_valid_iff : tx.check = .valid ↔ (tx.isCoinbase = true ∨ tx.inputs ≠ [])
    ∧ tx.outputs ≠ [] ∧ checkOutputs 0 tx.outputs = .valid ∧ tx.prevouts.Nodup := by
  simp only [check, List.isEmpty_iff, Bool.and_eq_true, Bool.not_eq_true']
  by_cases hi : tx.isCoinbase = false ∧ tx.inputs = []
  · simp [hi]
  · have hn : tx.isCoinbase = true ∨ tx.inputs ≠ [] := by
      cases hc : tx.isCoinbase with
      | true => exact Or.inl rfl
      | false => exact Or.inr fun he => hi ⟨hc, he⟩
    by_cases ho : tx.outputs = []
    · simp [hi, ho]
    · cases hv : checkOutputs 0 tx.outputs with
      | invalid reason => simp [hi, ho]
      | valid =>
        by_cases hd : tx.prevouts.Nodup <;> simp [hi, hn, ho, hd]

theorem nodup_prevouts_of_check (h : tx.check = .valid) : tx.prevouts.Nodup :=
  (check_eq_valid_iff.mp h).2.2.2

theorem inMoneyRange_of_check (h : tx.check = .valid) :
    ∀ output ∈ tx.outputs, inMoneyRange output.value = true :=
  inMoneyRange_of_checkOutputs (check_eq_valid_iff.mp h).2.2.1

theorem valueOut_of_check (h : tx.check = .valid) : ∃ sum, tx.valueOut = some sum :=
  sum_of_checkOutputs (check_eq_valid_iff.mp h).2.2.1

theorem head?_prevouts_of_check (h : tx.check = .valid) (hc : tx.isCoinbase = false) :
    ∃ point, tx.prevouts.head? = some point := by
  have hi := (check_eq_valid_iff.mp h).1.resolve_left (by simp [hc])
  cases hp : tx.prevouts with
  | nil => exact absurd (List.map_eq_nil_iff.mp hp) hi
  | cons point rest => exact ⟨point, rfl⟩

end Transaction

theorem checkTransactions_eq_valid_iff {txs : List Transaction} :
    checkTransactions txs = .valid ↔ ∀ tx ∈ txs, tx.check = .valid := by
  induction txs with
  | nil => simp [checkTransactions]
  | cons tx rest ih =>
    rw [checkTransactions, List.forall_mem_cons]
    cases tx.check with
    | invalid reason => simp
    | valid => simpa using ih

theorem checkCoinbase_eq_valid_iff {txs : List Transaction} :
    checkCoinbase txs = .valid ↔ ∃ outputs rest, txs = .coinbase outputs :: rest
      ∧ ∀ tx ∈ rest, tx.isCoinbase = false := by
  cases txs with
  | nil => simp [checkCoinbase]
  | cons first rest =>
    cases first with
    | spend inputs outputs => simp [checkCoinbase, Transaction.isCoinbase]
    | coinbase outputs =>
      have hv : checkCoinbase (.coinbase outputs :: rest) = .valid
          ↔ ∀ tx ∈ rest, tx.isCoinbase = false := by
        have hf : (Transaction.coinbase outputs).isCoinbase = true := rfl
        cases ha : rest.any (·.isCoinbase) with
        | true =>
          obtain ⟨tx, hm, hc⟩ := List.any_eq_true.mp ha
          have hn : ¬∀ tx ∈ rest, tx.isCoinbase = false := fun h => by simp [h tx hm] at hc
          simp [checkCoinbase, hf, ha, hn]
        | false => simpa [checkCoinbase, hf, ha] using List.any_eq_false.mp ha
      rw [hv]
      constructor
      · intro h
        exact ⟨outputs, rest, rfl, h⟩
      · rintro ⟨_, _, he, h⟩
        cases he
        exact h

theorem Block.check_eq_valid_iff {block : Block} : block.check = .valid
    ↔ transactionRoot? block.transactions = some block.header.root
      ∧ checkCoinbase block.transactions = .valid
      ∧ checkTransactions block.transactions = .valid := by
  rw [check]
  cases transactionRoot? block.transactions with
  | none => simp
  | some root =>
    by_cases hr : root = block.header.root
    · cases checkCoinbase block.transactions with
      | invalid reason => simp [hr]
      | valid => simp [hr]
    · simp [hr]

end CoinLedger

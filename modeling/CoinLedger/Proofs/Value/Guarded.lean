import Mathlib.Algebra.Order.BigOperators.Group.List
import Mathlib.Algebra.Order.Group.Int
import CoinLedger.Proofs.Block.Checked
import CoinLedger.Proofs.Value.Exact

/-! When a guarded sum of money goes through. The guard looks at every partial sum, and so does the
answer; where no value is negative the partial sums rise, and only the last of them matters. -/
namespace CoinLedger

/-- The exact values that amounts of money may have. -/
def WithinMoney (value : Int) : Prop := 0 ≤ value ∧ value ≤ maxMoney.toInt

instance (value : Int) : Decidable (WithinMoney value) :=
  inferInstanceAs (Decidable (0 ≤ value ∧ value ≤ maxMoney.toInt))

/-- The exact sum of what outputs are worth. -/
def worthOf (outputs : List Output) : Int := (outputs.map (·.value.toInt)).sum

@[simp] theorem worthOf_nil : worthOf [] = 0 := rfl

@[simp] theorem worthOf_cons (output : Output) (rest : List Output) :
    worthOf (output :: rest) = output.value.toInt + worthOf rest :=
  List.sum_cons

theorem worthOf_append (front back : List Output) :
    worthOf (front ++ back) = worthOf front + worthOf back := by
  rw [worthOf, List.map_append, List.sum_append, worthOf, worthOf]

theorem worthOf_perm {outputs others : List Output} (h : outputs.Perm others) :
    worthOf outputs = worthOf others :=
  (h.map _).sum_eq

theorem worthOf_nonneg {outputs : List Output}
    (h : ∀ output ∈ outputs, WithinMoney output.value.toInt) : 0 ≤ worthOf outputs := by
  apply List.sum_nonneg
  intro value hm
  obtain ⟨output, ho, rfl⟩ := List.mem_map.mp hm
  exact (h output ho).1

theorem withinMoney_zero : WithinMoney (0 : Amount).toInt := by decide

theorem amount?_eq_some_iff {value : Int} {amount : Amount} :
    amount? value = some amount ↔ WithinMoney value ∧ amount.toInt = value := by
  constructor
  · intro h
    obtain ⟨he, hw⟩ := toInt_of_amount? h
    exact ⟨hw, he⟩
  · intro h
    obtain ⟨hw, he⟩ := h
    rw [WithinMoney] at hw
    rw [amount?, if_pos hw, ← he, Int64.ofInt_toInt]

theorem amount?_eq_none_iff {value : Int} : amount? value = none ↔ ¬WithinMoney value := by
  rw [amount?, WithinMoney]
  split <;> simp_all

theorem exists_amount {value : Int} (h : WithinMoney value) :
    ∃ amount : Amount, amount.toInt = value := by
  cases ha : amount? value with
  | none => exact absurd h (amount?_eq_none_iff.mp ha)
  | some amount => exact ⟨amount, (amount?_eq_some_iff.mp ha).2⟩

/-- A guarded sum goes through exactly if all of its partial sums are within the range. -/
theorem foldlM_addMoney_eq_some_iff {outputs : List Output} {total sum : Amount}
    (ht : WithinMoney total.toInt) :
    (outputs.map (·.value)).foldlM addMoney total = some sum
      ↔ (∀ n, WithinMoney (total.toInt + worthOf (outputs.take n)))
        ∧ sum.toInt = total.toInt + worthOf outputs := by
  induction outputs generalizing total with
  | nil => simp [ht, ← Int64.toInt_inj, eq_comm]
  | cons output rest ih =>
    rw [List.map_cons, List.foldlM_cons]
    cases hn : addMoney total output.value with
    | none =>
      have hout := amount?_eq_none_iff.mp hn
      constructor
      · intro h
        cases h
      · intro h
        exact absurd (by simpa using h.1 1) hout
    | some next =>
      obtain ⟨hw, he⟩ := amount?_eq_some_iff.mp hn
      rw [← he] at hw
      rw [Option.bind_eq_bind, Option.bind_some, ih hw, he, worthOf_cons, Int.add_assoc]
      apply and_congr_left'
      constructor
      · intro h n
        cases n with
        | zero => simpa using ht
        | succ n => simpa [Int.add_assoc] using h n
      · intro h n
        simpa [Int.add_assoc] using h (n + 1)

/-- No partial sum of the outputs leaves the money range. -/
def PartialSumsWithin (outputs : List Output) : Prop := ∀ n, WithinMoney (worthOf (outputs.take n))

theorem PartialSumsWithin.worthOf {outputs : List Output} (h : PartialSumsWithin outputs) :
    WithinMoney (worthOf outputs) := by
  have hall := h outputs.length
  rwa [List.take_length] at hall

theorem valueOut_eq_some_iff {tx : Transaction} {sum : Amount} :
    tx.valueOut = some sum ↔ PartialSumsWithin tx.outputs ∧ sum.toInt = worthOf tx.outputs := by
  rw [Transaction.valueOut, sumMoney, foldlM_addMoney_eq_some_iff withinMoney_zero]
  simp [PartialSumsWithin]

theorem valueOut_eq_none_iff {tx : Transaction} :
    tx.valueOut = none ↔ ¬PartialSumsWithin tx.outputs := by
  cases hv : tx.valueOut with
  | none =>
    refine iff_of_true rfl fun hp => ?_
    obtain ⟨sum, hs⟩ := exists_amount hp.worthOf
    rw [valueOut_eq_some_iff.mpr ⟨hp, hs⟩] at hv
    cases hv
  | some sum => simp [(valueOut_eq_some_iff.mp hv).1]

/-- Between amounts within the range, a fee can only fail for being negative. -/
theorem fee_cases {valueIn valueOut : Amount} (hi : WithinMoney valueIn.toInt)
    (ho : WithinMoney valueOut.toInt) :
    (valueOut.toInt ≤ valueIn.toInt ∧ ∃ left, fee valueIn valueOut = .ok left
        ∧ left.toInt = valueIn.toInt - valueOut.toInt)
      ∨ valueIn.toInt < valueOut.toInt ∧ fee valueIn valueOut = .error .inBelowOut := by
  rw [fee]
  by_cases hl : valueIn < valueOut
  · exact Or.inr ⟨Int64.lt_iff_toInt_lt.mp hl, if_pos hl⟩
  · have hle : valueOut.toInt ≤ valueIn.toInt := by
      rw [Int64.lt_iff_toInt_lt] at hl
      omega
    have hw : WithinMoney (valueIn.toInt - valueOut.toInt) := by
      simp only [WithinMoney] at hi ho ⊢
      omega
    obtain ⟨left, he⟩ := exists_amount hw
    have ha := amount?_eq_some_iff.mpr ⟨hw, he⟩
    exact Or.inl ⟨hle, left, by rw [if_neg hl, ha], he⟩

end CoinLedger

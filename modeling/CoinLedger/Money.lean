import CoinLedger.Verdict

/-! Amounts of money and their range. Sums are taken as exact integers and checked after every
addition, so no sum wraps. -/
namespace CoinLedger

/-- An amount; negative ones can be written down, and validation refuses them. -/
abbrev Amount := Int64

def maxMoney : Amount := 10000000

def inMoneyRange (value : Amount) : Bool :=
  0 ≤ value && value ≤ maxMoney

/-- The amount of this exact value, if it is in the money range. -/
def amount? (value : Int) : Option Amount :=
  if 0 ≤ value ∧ value ≤ maxMoney.toInt then some (Int64.ofInt value) else none

def addMoney (total value : Amount) : Option Amount :=
  amount? (total.toInt + value.toInt)

/-- The sum of the values, if no partial sum leaves the money range. -/
def sumMoney (values : List Amount) : Option Amount :=
  values.foldlM addMoney 0

/-- What is left for the fee when `valueOut` is paid from `valueIn`. -/
def fee (valueIn valueOut : Amount) : Except RejectReason Amount :=
  if valueIn < valueOut then .error .inBelowOut
  else
    match amount? (valueIn.toInt - valueOut.toInt) with
    | some left => .ok left
    | none => .error .feeOutOfRange

theorem toInt_of_amount? {value : Int} {amount : Amount} (h : amount? value = some amount) :
    amount.toInt = value ∧ 0 ≤ value ∧ value ≤ maxMoney.toInt := by
  simp only [amount?] at h
  split at h
  · rename_i range
    cases h
    have top : maxMoney.toInt = 10000000 := by decide
    refine ⟨Int64.toInt_ofInt_of_le ?_ ?_, range⟩ <;> omega
  · cases h

end CoinLedger

import CoinLedger.Transaction.Basic

/-! The rules for a transaction by itself, in the order in which they are tried. -/
namespace CoinLedger

/-- The rules for outputs, given the sum of those before them. -/
def checkOutputs (total : Amount) : List Output → Verdict
  | [] => .valid
  | output :: rest =>
    if output.value < 0 then .invalid .outputNegative
    else if maxMoney < output.value then .invalid .outputTooLarge
    else
      match addMoney total output.value with
      | none => .invalid .outputTotalTooLarge
      | some total => checkOutputs total rest

/-- A spend has inputs, every transaction has outputs, their values and sums are in range, and no
coin is spent twice. -/
def Transaction.check (tx : Transaction) : Verdict :=
  if !tx.isCoinbase && tx.inputs.isEmpty then .invalid .inputsEmpty
  else if tx.outputs.isEmpty then .invalid .outputsEmpty
  else
    match checkOutputs 0 tx.outputs with
    | .invalid reason => .invalid reason
    | .valid => if tx.prevouts.Nodup then .valid else .invalid .inputsDuplicate

end CoinLedger

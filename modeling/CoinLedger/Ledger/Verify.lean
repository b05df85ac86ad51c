import CoinLedger.Ledger.View
import CoinLedger.Script.Machine

/-! The rules for a transaction against a view of the coins: its inputs are there and worth enough,
and every one of them is authorized by its script. -/
namespace CoinLedger.CoinView

def hasInputs (view : CoinView) (tx : Transaction) : Bool :=
  tx.prevouts.all view.hasCoin

def addValueAt (view : CoinView) (total : Amount) (point : OutPoint) :
    Except RejectReason Amount :=
  match view.coin? point with
  | none => .error .inputsMissingOrSpent
  | some coin =>
    if inMoneyRange coin.value then
      match addMoney total coin.value with
      | none => .error .inputValuesOutOfRange
      | some total => .ok total
    else .error .inputValuesOutOfRange

/-- The sum of the coins that a transaction spends, checked input by input. -/
def valueIn (view : CoinView) (tx : Transaction) : Except RejectReason Amount :=
  tx.prevouts.foldlM view.addValueAt 0

/-- What a transaction leaves for the fee. That an input is missing is found before anything about
values. -/
def inputFee (view : CoinView) (tx : Transaction) : Except RejectReason Amount :=
  if tx.isCoinbase then .ok 0
  else if !view.hasInputs tx then .error .inputsMissingOrSpent
  else
    match view.valueIn tx with
    | .error reason => .error reason
    | .ok valueIn =>
      match tx.valueOut with
      | none => .error .outputTotalTooLarge
      | some valueOut => fee valueIn valueOut

/-- The verdict on the inputs of a transaction, and its fee, which is zero after a refusal. -/
def checkInputs (view : CoinView) (tx : Transaction) : Verdict × Amount :=
  match view.inputFee tx with
  | .error reason => (.invalid reason, 0)
  | .ok fee => (.valid, fee)

/-- Authorize the inputs from position `index` on. A script at fault refuses like any other. -/
def checkScriptsFrom (view : CoinView) (tx : Transaction) (index : Nat) : List Input → Verdict
  | [] => .valid
  | input :: rest =>
    match view.coin? input.prevout with
    | none => .invalid .inputsMissingOrSpent
    | some coin =>
      match Script.opens input.unlock.script coin.output.lock tx index with
      | .ok true => checkScriptsFrom view tx (index + 1) rest
      | _ => .invalid .badTransaction

def checkScripts (view : CoinView) (tx : Transaction) : Verdict :=
  view.checkScriptsFrom tx 0 tx.inputs

/-- The rules for a transaction against a view; a coinbase has no inputs to ask about. -/
def verify (view : CoinView) (tx : Transaction) : Verdict :=
  if tx.isCoinbase then .valid
  else
    match view.checkInputs tx with
    | (.invalid reason, _) => .invalid reason
    | (.valid, _) => view.checkScripts tx

end CoinLedger.CoinView

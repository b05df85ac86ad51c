/-! What validation answers: a verdict, and for a refusal its reason with a stable code. -/
namespace CoinLedger

inductive RejectReason where
  | inputsMissingOrSpent
  | inputValuesOutOfRange
  | inBelowOut
  | feeOutOfRange
  | outputNegative
  | outputTooLarge
  | outputTotalTooLarge
  | inputsEmpty
  | outputsEmpty
  | inputsDuplicate
  | coinbaseMissing
  | coinbaseMultiple
  | badMerkleRoot
  | badTransaction
deriving DecidableEq

def RejectReason.code : RejectReason → String
  | inputsMissingOrSpent => "bad-txns-inputs-missingorspent"
  | inputValuesOutOfRange => "bad-txns-inputvalues-outofrange"
  | inBelowOut => "bad-txns-in-belowout"
  | feeOutOfRange => "bad-txns-fee-outofrange"
  | outputNegative => "bad-txns-out-negative"
  | outputTooLarge => "bad-txns-out-toolarge"
  | outputTotalTooLarge => "bad-txns-txouttotal-toolarge"
  | inputsEmpty => "bad-txns-inputs-empty"
  | outputsEmpty => "bad-txns-outputs-empty"
  | inputsDuplicate => "bad-txns-inputs-duplicate"
  | coinbaseMissing => "bad-cb-missing"
  | coinbaseMultiple => "bad-cb-multiple"
  | badMerkleRoot => "bad-txnmrklroot"
  | badTransaction => "bad-tx"

inductive Verdict where
  | valid
  | invalid (reason : RejectReason)
deriving DecidableEq

end CoinLedger

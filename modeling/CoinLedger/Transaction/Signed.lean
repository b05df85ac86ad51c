import CoinLedger.Signature
import CoinLedger.Transaction.Basic

/-! Signing a transaction, and the simplest signed spend. -/
namespace CoinLedger

/-- The signature of a transaction by a key. -/
def Transaction.sign (tx : Transaction) (key : SecretKey) : Bytes :=
  CoinLedger.sign tx.signatureHash key

/-- Spend one coin that is locked to a key, and pay `value` to the holder of another key. -/
def signedSpend (key : SecretKey) (recipient : PublicKey) (value : Amount) (prevout : OutPoint) :
    Transaction :=
  let outputs := [⟨value, Script.payToKeyHash recipient.bytes⟩]
  let unsigned := Transaction.spend [⟨prevout, .empty⟩] outputs
  .spend [⟨prevout, unsigned.sign key, key.publicKey.bytes⟩] outputs

end CoinLedger

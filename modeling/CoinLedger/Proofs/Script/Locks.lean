import CoinLedger.Proofs.Script.Comparison

/-! What the standard locks ask for. The digests that they compare as numbers have one length, and
byte strings of one length are told apart by the numbers that they spell. So a lock opens for the
very digest that it names; and whatever the spender brings, it finds the items that it needs. -/
namespace CoinLedger

theorem Digest.bigEndianValue_eq_iff {width : Nat} {a b : Digest width} :
    bigEndianValue a.bytes = bigEndianValue b.bytes ↔ a = b := by
  have hl : a.bytes.length = b.bytes.length := by rw [a.length_bytes, b.length_bytes]
  constructor
  · intro h
    exact Digest.ext (bigEndianValue_inj hl h)
  · intro h
    rw [h]

theorem isZero_flag (value : Bool) : isZero (flag value) = !value := by
  cases value <;> decide

namespace Script
variable {tx : Transaction} {input position : Nat} {stack : Stack}

theorem opens_eq_ok_true_iff {unlock lock : Script} {tx : Transaction} {input : Nat} :
    opens unlock lock tx input = .ok true
      ↔ ∃ outcome, eval (unlock ++ lock) tx input = .ok outcome ∧ outcome.accepted = true := by
  rw [opens]
  cases eval (unlock ++ lock) tx input with
  | error fault => simp
  | ok outcome => simp

theorem runFrom_eq_digests {width : Nat} (named found : Digest width) (script : Script) :
    runFrom tx input position (named.bytes :: found.bytes :: stack) (.eq :: script)
      = runFrom tx input (position + 1) (flag (found = named) :: stack) script := by
  simp only [runFrom_eq, Digest.bigEndianValue_eq_iff, eq_comm]

theorem accepted_flag (value : Bool) :
    (Outcome.mk true (flag value :: stack)).accepted = value := by
  simp [Outcome.accepted, Outcome.top?, isZero_flag]

/-- The end of the lock on a key hash: two digests, and below them what the spender brought. -/
theorem runFrom_compare_checkSig {width : Nat} (named found : Digest width)
    (publicKey signature : Bytes) :
    runFrom tx input position [named.bytes, found.bytes, publicKey, signature]
        [.eq, .verify, .checkSig]
      = .ok (if found = named
          then ⟨true, [flag (verifySignature signature publicKey tx.signatureHash)]⟩
          else ⟨false, [publicKey, signature]⟩) := by
  rw [runFrom_eq_digests, runFrom_verify, isZero_flag]
  by_cases hf : found = named
  · rw [if_pos hf, decide_eq_true hf]
    rfl
  · rw [if_neg hf, decide_eq_false hf]
    rfl

/-- The lock on a key hash opens for a key with that hash and a signature by it, and is never at
fault. -/
theorem opens_payToKeyHash (unlock : Unlock) (publicKey : Bytes) (tx : Transaction)
    (input : Nat) :
    opens unlock.script (payToKeyHash publicKey) tx input
      = .ok (decide (hash160 unlock.publicKey = hash160 publicKey)
          && verifySignature unlock.signature unlock.publicKey tx.signatureHash) := by
  have hr : eval (unlock.script ++ payToKeyHash publicKey) tx input
      = runFrom tx input 5 [(hash160 publicKey).bytes, (hash160 unlock.publicKey).bytes,
          unlock.publicKey, unlock.signature] [.eq, .verify, .checkSig] := by
    rw [eval, Unlock.script, payToKeyHash, List.cons_append, List.cons_append, List.nil_append]
    iterate 5 rw [runFrom_of_next rfl]
  rw [opens, hr, runFrom_compare_checkSig]
  by_cases hk : hash160 unlock.publicKey = hash160 publicKey
  · simp only [if_pos hk, accepted_flag, decide_eq_true hk, Bool.true_and]
  · rw [if_neg hk, decide_eq_false hk]
    rfl

/-- The lock on a digest opens for a byte string with that digest, and is never at fault. -/
theorem opens_payToPreimage (unlock : Unlock) (digest : Hash) (tx : Transaction) (input : Nat) :
    opens unlock.script (payToPreimage digest) tx input
      = .ok (decide (sha256 unlock.publicKey = digest)) := by
  have hr : eval (unlock.script ++ payToPreimage digest) tx input
      = runFrom tx input 4 [digest.bytes, (sha256 unlock.publicKey).bytes, unlock.signature]
          [.eq] := by
    rw [eval, Unlock.script, payToPreimage, List.cons_append, List.cons_append, List.nil_append]
    iterate 4 rw [runFrom_of_next rfl]
  rw [opens, hr, runFrom_eq_digests, runFrom]
  simp only [accepted_flag]

/-- Whatever a spender brings, malformed or not, a standard lock opens or stays shut, and never
faults. The lock on a key hash opens exactly for a key with that hash and a signature under this
key; the lock on a digest opens exactly for a byte string with that digest in place of the key, with
any signature. -/
theorem standard_locks_open_exactly (unlock : Unlock) (tx : Transaction) (input : Nat) :
    (∀ publicKey : Bytes, opens unlock.script (payToKeyHash publicKey) tx input
        = .ok (decide ((hash160 unlock.publicKey).bytes = (hash160 publicKey).bytes
          ∧ verifySignature unlock.signature unlock.publicKey tx.signatureHash = true)))
      ∧ ∀ digest : Hash, opens unlock.script (payToPreimage digest) tx input
        = .ok (decide (sha256 unlock.publicKey = digest)) := by
  refine ⟨?_, fun digest => opens_payToPreimage unlock digest tx input⟩
  intro publicKey
  simp only [opens_payToKeyHash, Digest.ext_iff, Bool.decide_and, Bool.decide_eq_true]

/-- Nothing is a preimage too. -/
example : opens Unlock.empty.script (payToPreimage (sha256 [])) (.coinbase []) 0 = .ok true := by
  decide +kernel

end Script
end CoinLedger

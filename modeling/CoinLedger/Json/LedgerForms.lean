import CoinLedger.Block.Basic
import CoinLedger.Json.Form
import CoinLedger.Ledger.Coin

/-! The JSON forms of scripts, transactions, blocks and coins. Byte strings and digests are arrays
of numbers. -/
namespace CoinLedger
open Json JsonForm

instance : JsonForm (Digest width) where
  write digest := write digest.bytes
  read? value := do Digest.ofBytes? width (← read? value)

instance : JsonForm OutPoint where
  write point := record [("hash", write point.txid), ("index", write point.index)]
  read? value := do
    let [txid, index] ← allFields? ["hash", "index"] value | none
    some ⟨← read? txid, ← read? index⟩

instance : JsonForm Unlock where
  write unlock :=
    record [("signature", write unlock.signature), ("public_key", write unlock.publicKey)]
  read? value := do
    let [signature, publicKey] ← allFields? ["signature", "public_key"] value | none
    some ⟨← read? signature, ← read? publicKey⟩

instance : JsonForm Input where
  write input := record [("prevout", write input.prevout), ("script_sig", write input.unlock)]
  read? value := do
    let [prevout, unlock] ← allFields? ["prevout", "script_sig"] value | none
    some ⟨← read? prevout, ← read? unlock⟩

namespace Opcode

/-- The name of an opcode as an alternative. -/
def variantName : Opcode → String
  | push _ => "Push"
  | dup => "Dup"
  | sha256 => "Sha256"
  | sha1 => "Sha1"
  | hash160 => "Hash160"
  | geq => "Geq"
  | eq => "Eq"
  | verify => "Verify"
  | checkSig => "CheckSig"
  | select => "If"

/-- The opcodes without a literal. -/
def plain : List Opcode :=
  [dup, sha256, sha1, hash160, geq, eq, verify, checkSig, select]

/-- An alternative without a value may be given `null` for one. -/
def ofVariant? : String → Option Json.Value → Option Opcode
  | "Push", some literal => (read? literal).map push
  | name, none | name, some .null => plain.find? fun opcode => opcode.variantName = name
  | _, _ => none

end Opcode

instance : JsonForm Opcode where
  write
    | .push literal => variant "Push" (write literal)
    | opcode => .string (symbols opcode.variantName)
  read? value := do
    let (name, payload) ← variant? value
    Opcode.ofVariant? name payload

instance : JsonForm Output where
  write output := record [("value", write output.value), ("script_pubkey", write output.lock)]
  read? value := do
    let [amount, lock] ← allFields? ["value", "script_pubkey"] value | none
    some ⟨← read? amount, ← read? lock⟩

instance : JsonForm Transaction where
  write
    | .coinbase outputs => variant "Coinbase" (record [("outputs", write outputs)])
    | .spend inputs outputs =>
      variant "Normal" (record [("inputs", write inputs), ("outputs", write outputs)])
  read? value := do
    match ← variant? value with
    | ("Coinbase", some fields) =>
      let [outputs] ← allFields? ["outputs"] fields | none
      some (.coinbase (← read? outputs))
    | ("Normal", some fields) =>
      let [inputs, outputs] ← allFields? ["inputs", "outputs"] fields | none
      some (.spend (← read? inputs) (← read? outputs))
    | _ => none

instance : JsonForm Header where
  write header := record
    [("prev_block_hash", write header.previous), ("merkle_root", write header.root),
      ("timestamp", write header.time), ("nonce", write header.nonce)]
  read? value := do
    let [previous, root, time, nonce] ←
      allFields? ["prev_block_hash", "merkle_root", "timestamp", "nonce"] value | none
    some ⟨← read? previous, ← read? root, ← read? time, ← read? nonce⟩

instance : JsonForm Block where
  write block :=
    record [("header", write block.header), ("transactions", write block.transactions)]
  read? value := do
    let [header, transactions] ← allFields? ["header", "transactions"] value | none
    some ⟨← read? header, ← read? transactions⟩

instance : JsonForm Coin where
  write coin := record
    [("output", write coin.output), ("is_coinbase", write coin.isCoinbase),
      ("spent", write coin.spent)]
  read? value := do
    let [output, isCoinbase, spent] ← allFields? ["output", "is_coinbase", "spent"] value | none
    some ⟨← read? output, ← read? isCoinbase, ← read? spent⟩

end CoinLedger

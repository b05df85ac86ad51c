import CoinLedger.Digest.Ripemd160
import CoinLedger.Encoding

/-! Scripts: sequences of opcodes for a machine without loops, their byte form, and the standard
locks. -/
namespace CoinLedger

inductive Opcode where
  | push (literal : Bytes)
  | dup
  | sha256
  | sha1
  | hash160
  | geq
  | eq
  | verify
  | checkSig
  | select
deriving DecidableEq

abbrev Script := List Opcode

namespace Opcode

def name : Opcode → String
  | push _ => "push"
  | dup => "dup"
  | sha256 => "sha256"
  | sha1 => "sha1"
  | hash160 => "hash160"
  | geq => "geq"
  | eq => "eq"
  | verify => "verify"
  | checkSig => "checksig"
  | select => "if"

/-- The byte that stands for an opcode in the byte form. -/
def tag : Opcode → UInt8
  | push _ => 0x4c
  | dup => 0x76
  | sha256 => 0xa8
  | sha1 => 0xa7
  | hash160 => 0xa9
  | geq => 0xa2
  | eq => 0x87
  | verify => 0x69
  | checkSig => 0xac
  | select => 0x63

def needs : Opcode → Nat
  | push _ => 0
  | dup | sha256 | sha1 | hash160 | verify => 1
  | geq | eq | checkSig => 2
  | select => 3

def encode (opcode : Opcode) : Bytes :=
  match opcode with
  | push literal => opcode.tag :: sizedBytes literal
  | _ => [opcode.tag]

end Opcode

namespace Script

def encode (script : Script) : Bytes :=
  sizedList Opcode.encode script

/-- The lock opened by a signature under the key whose short digest it names. -/
def payToKeyHash (publicKey : Bytes) : Script :=
  [.dup, .hash160, .push (hash160 publicKey).bytes, .eq, .verify, .checkSig]

/-- The lock opened by a byte string with this SHA-256 digest. -/
def payToPreimage (digest : Hash) : Script :=
  [.sha256, .push digest.bytes, .eq]

end Script
end CoinLedger

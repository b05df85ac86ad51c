import CoinLedger.Decimal
import CoinLedger.Digest.Sha1
import CoinLedger.Signature
import CoinLedger.Transaction.Basic

/-! The script machine: each opcode runs once, from left to right, on a stack of byte strings. A
script that finds too few items is at fault; one that completes may still refuse.
`step_eq_underflow_iff` says when an opcode finds too few. -/
namespace CoinLedger

abbrev Stack := List Bytes

/-- An opcode found fewer items than it needs. -/
structure Fault where
  input : Nat
  position : Nat
  opcode : Opcode
  available : Nat
deriving DecidableEq

def Fault.message (fault : Fault) : String :=
  "stack underflow at opcode " ++ decimalText fault.position ++ " (" ++ fault.opcode.name
    ++ ") of input " ++ decimalText fault.input ++ ": needs " ++ decimalText fault.opcode.needs
    ++ " item(s), found " ++ decimalText fault.available

/-- A completed evaluation; `valid` is false after a `verify` that found zero. -/
structure Outcome where
  valid : Bool
  stack : Stack
deriving DecidableEq

/-- Zero is any byte string without a byte other than zero. -/
def isZero (bytes : Bytes) : Bool :=
  bigEndianValue bytes = 0

def flag (value : Bool) : Bytes :=
  [if value then 1 else 0]

def Outcome.top? (outcome : Outcome) : Option Bytes :=
  outcome.stack.head?

/-- An outcome authorizes a spend if no `verify` failed and the top item is there and not zero. -/
def Outcome.accepted (outcome : Outcome) : Bool :=
  outcome.valid && outcome.top?.any fun top => !isZero top

inductive Step where
  | underflow
  | halt (stack : Stack)
  | next (stack : Stack)
deriving DecidableEq

/-- Run one opcode. Operands are taken from the top: the first is the top item, and `select`
finds the condition, then the item for zero, then the other. -/
def Opcode.step (tx : Transaction) : Opcode → Stack → Step
  | push literal, stack => .next (literal :: stack)
  | dup, x :: stack => .next (x :: x :: stack)
  | sha256, x :: stack => .next ((CoinLedger.sha256 x).bytes :: stack)
  | sha1, x :: stack => .next ((CoinLedger.sha1 x).bytes :: stack)
  | hash160, x :: stack => .next ((CoinLedger.hash160 x).bytes :: stack)
  | geq, x :: y :: stack => .next (flag (bigEndianValue y ≤ bigEndianValue x) :: stack)
  | eq, x :: y :: stack => .next (flag (bigEndianValue x = bigEndianValue y) :: stack)
  | verify, x :: stack => if isZero x then .halt stack else .next stack
  | checkSig, publicKey :: signature :: stack =>
    .next (flag (verifySignature signature publicKey tx.signatureHash) :: stack)
  | select, condition :: zero :: other :: stack =>
    .next ((if isZero condition then zero else other) :: stack)
  | _, _ => .underflow

theorem Opcode.step_eq_underflow_iff (tx : Transaction) (opcode : Opcode) (stack : Stack) :
    opcode.step tx stack = .underflow ↔ stack.length < opcode.needs := by
  match opcode, stack with
  | push _, _ => simp [step, needs]
  | dup, [] | sha256, [] | sha1, [] | hash160, [] | verify, [] => simp [step, needs]
  | dup, _ :: _ | sha256, _ :: _ | sha1, _ :: _ | hash160, _ :: _ => simp [step, needs]
  | verify, x :: _ => cases zero : isZero x <;> simp [step, needs, zero]
  | geq, [] | eq, [] | checkSig, [] | geq, [_] | eq, [_] | checkSig, [_] => simp [step, needs]
  | geq, _ :: _ :: _ | eq, _ :: _ :: _ | checkSig, _ :: _ :: _ => simp [step, needs]
  | select, [] | select, [_] | select, [_, _] => simp [step, needs]
  | select, _ :: _ :: _ :: _ => simp [step, needs]

namespace Script

/-- Run the rest of a script on a stack; `position` counts the opcodes before it. -/
def runFrom (tx : Transaction) (input : Nat) (position : Nat) (stack : Stack) :
    Script → Except Fault Outcome
  | [] => .ok ⟨true, stack⟩
  | opcode :: rest =>
    match opcode.step tx stack with
    | .underflow => .error ⟨input, position, opcode, stack.length⟩
    | .halt stack => .ok ⟨false, stack⟩
    | .next stack => runFrom tx input (position + 1) stack rest

def eval (script : Script) (tx : Transaction) (input : Nat) : Except Fault Outcome :=
  runFrom tx input 0 [] script

def opens (unlock lock : Script) (tx : Transaction) (input : Nat) : Except Fault Bool :=
  match eval (unlock ++ lock) tx input with
  | .error fault => .error fault
  | .ok outcome => .ok outcome.accepted

end Script
end CoinLedger

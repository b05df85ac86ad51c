import CoinLedger.Digest.Basic
import CoinLedger.Digest.Words

/-! The SHA-1 digest, as a fold of its compression step over padded blocks. -/
namespace CoinLedger.Sha1

structure State where
  a : UInt32
  b : UInt32
  c : UInt32
  d : UInt32
  e : UInt32
deriving DecidableEq

def State.initial : State :=
  ⟨0x67452301, 0xefcdab89, 0x98badcfe, 0x10325476, 0xc3d2e1f0⟩

def choose (x y z : UInt32) : UInt32 := (x &&& y) ||| (~~~x &&& z)

def parity (x y z : UInt32) : UInt32 := x ^^^ y ^^^ z

def majority (x y z : UInt32) : UInt32 := (x &&& y) ||| (x &&& z) ||| (y &&& z)

/-- The mixing function and the constant of the round with this number. -/
def stage (number : Nat) : (UInt32 → UInt32 → UInt32 → UInt32) × UInt32 :=
  if number < 20 then (choose, 0x5a827999)
  else if number < 40 then (parity, 0x6ed9eba1)
  else if number < 60 then (majority, 0x8f1bbcdc)
  else (parity, 0xca62c1d6)

/-- The rounds from `number` on, one for each word of the schedule. -/
def State.rounds (number : Nat) : State → List UInt32 → State
  | s, word :: words =>
    let (mix, constant) := stage number
    let first := rotateLeft32 s.a 5 + mix s.b s.c s.d + s.e + constant + word
    State.rounds (number + 1) ⟨first, s.a, rotateLeft32 s.b 30, s.c, s.d⟩ words
  | s, [] => s

/-- Lengthen a message schedule, latest word first, by so many words. -/
def lengthen : Nat → List UInt32 → List UInt32
  | count + 1, w₁ :: w₂ :: w₃ :: w₄ :: w₅ :: w₆ :: w₇ :: w₈ :: w₉ :: w₁₀ :: w₁₁ :: w₁₂ :: w₁₃ :: w₁₄
      :: w₁₅ :: w₁₆ :: older =>
    lengthen count (rotateLeft32 (w₃ ^^^ w₈ ^^^ w₁₄ ^^^ w₁₆) 1 :: w₁ :: w₂ :: w₃ :: w₄ :: w₅ :: w₆
      :: w₇ :: w₈ :: w₉ :: w₁₀ :: w₁₁ :: w₁₂ :: w₁₃ :: w₁₄ :: w₁₅ :: w₁₆ :: older)
  | _, words => words

def schedule (block : Bytes) : List UInt32 :=
  (lengthen 64 (wordsHighFirst block).reverse).reverse

def State.compress (s : State) (block : Bytes) : State :=
  let t := s.rounds 0 (schedule block)
  ⟨s.a + t.a, s.b + t.b, s.c + t.c, s.d + t.d, s.e + t.e⟩

def State.digest (s : State) : Digest 20 where
  bytes := [s.a, s.b, s.c, s.d, s.e].flatMap fun word => bigEndian 4 word.toNat
  length_bytes := by simp [length_bigEndian]

end CoinLedger.Sha1

namespace CoinLedger

def sha1 (message : Bytes) : Digest 20 :=
  let padded := padBlocks bigEndian message
  (foldBlocks 64 Sha1.State.compress (padded.length / 64) .initial padded).digest

end CoinLedger

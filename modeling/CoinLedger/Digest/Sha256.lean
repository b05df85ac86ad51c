import CoinLedger.Digest.Basic
import CoinLedger.Digest.Words

/-! The SHA-256 digest, as a fold of its compression step over padded blocks. -/
namespace CoinLedger.Sha256

structure State where
  a : UInt32
  b : UInt32
  c : UInt32
  d : UInt32
  e : UInt32
  f : UInt32
  g : UInt32
  h : UInt32
deriving DecidableEq

/-- The first 32 fractional bits of the cube roots of the first 64 primes. -/
def roundConstants : List UInt32 :=
  [0x428a2f98, 0x71374491, 0xb5c0fbcf, 0xe9b5dba5, 0x3956c25b, 0x59f111f1, 0x923f82a4, 0xab1c5ed5,
   0xd807aa98, 0x12835b01, 0x243185be, 0x550c7dc3, 0x72be5d74, 0x80deb1fe, 0x9bdc06a7, 0xc19bf174,
   0xe49b69c1, 0xefbe4786, 0x0fc19dc6, 0x240ca1cc, 0x2de92c6f, 0x4a7484aa, 0x5cb0a9dc, 0x76f988da,
   0x983e5152, 0xa831c66d, 0xb00327c8, 0xbf597fc7, 0xc6e00bf3, 0xd5a79147, 0x06ca6351, 0x14292967,
   0x27b70a85, 0x2e1b2138, 0x4d2c6dfc, 0x53380d13, 0x650a7354, 0x766a0abb, 0x81c2c92e, 0x92722c85,
   0xa2bfe8a1, 0xa81a664b, 0xc24b8b70, 0xc76c51a3, 0xd192e819, 0xd6990624, 0xf40e3585, 0x106aa070,
   0x19a4c116, 0x1e376c08, 0x2748774c, 0x34b0bcb5, 0x391c0cb3, 0x4ed8aa4a, 0x5b9cca4f, 0x682e6ff3,
   0x748f82ee, 0x78a5636f, 0x84c87814, 0x8cc70208, 0x90befffa, 0xa4506ceb, 0xbef9a3f7, 0xc67178f2]

/-- The first 32 fractional bits of the square roots of the first eight primes. -/
def State.initial : State :=
  ⟨0x6a09e667, 0xbb67ae85, 0x3c6ef372, 0xa54ff53a, 0x510e527f, 0x9b05688c, 0x1f83d9ab, 0x5be0cd19⟩

def State.round (s : State) (constant word : UInt32) : State :=
  let mixed := rotateRight32 s.e 6 ^^^ rotateRight32 s.e 11 ^^^ rotateRight32 s.e 25
  let choice := (s.e &&& s.f) ^^^ (~~~s.e &&& s.g)
  let first := s.h + mixed + choice + constant + word
  let spread := rotateRight32 s.a 2 ^^^ rotateRight32 s.a 13 ^^^ rotateRight32 s.a 22
  let majority := (s.a &&& s.b) ^^^ (s.a &&& s.c) ^^^ (s.b &&& s.c)
  ⟨first + (spread + majority), s.a, s.b, s.c, s.d + first, s.e, s.f, s.g⟩

def State.rounds : State → List UInt32 → List UInt32 → State
  | s, constant :: constants, word :: words => (s.round constant word).rounds constants words
  | s, _, _ => s

/-- Lengthen a message schedule, latest word first, by so many words. -/
def lengthen : Nat → List UInt32 → List UInt32
  | count + 1, w₁ :: w₂ :: w₃ :: w₄ :: w₅ :: w₆ :: w₇ :: w₈ :: w₉ :: w₁₀ :: w₁₁ :: w₁₂ :: w₁₃ :: w₁₄
      :: w₁₅ :: w₁₆ :: older =>
    let low := rotateRight32 w₁₅ 7 ^^^ rotateRight32 w₁₅ 18 ^^^ w₁₅ >>> 3
    let high := rotateRight32 w₂ 17 ^^^ rotateRight32 w₂ 19 ^^^ w₂ >>> 10
    lengthen count ((w₁₆ + low + w₇ + high) :: w₁ :: w₂ :: w₃ :: w₄ :: w₅ :: w₆ :: w₇ :: w₈ :: w₉
      :: w₁₀ :: w₁₁ :: w₁₂ :: w₁₃ :: w₁₄ :: w₁₅ :: w₁₆ :: older)
  | _, words => words

def schedule (block : Bytes) : List UInt32 :=
  (lengthen 48 (wordsHighFirst block).reverse).reverse

def State.compress (s : State) (block : Bytes) : State :=
  let t := s.rounds roundConstants (schedule block)
  ⟨s.a + t.a, s.b + t.b, s.c + t.c, s.d + t.d, s.e + t.e, s.f + t.f, s.g + t.g, s.h + t.h⟩

def State.digest (s : State) : Hash where
  bytes := [s.a, s.b, s.c, s.d, s.e, s.f, s.g, s.h].flatMap fun word => bigEndian 4 word.toNat
  length_bytes := by simp [length_bigEndian]

end CoinLedger.Sha256

namespace CoinLedger

def sha256 (message : Bytes) : Hash :=
  let padded := padBlocks bigEndian message
  (foldBlocks 64 Sha256.State.compress (padded.length / 64) .initial padded).digest

def doubleSha256 (message : Bytes) : Hash :=
  sha256 (sha256 message).bytes

end CoinLedger

import CoinLedger.Digest.Sha256

/-! The RIPEMD-160 digest: two lines of eighty rounds over each padded block, combined at its end.
`hash160` is the short digest that names a public key. -/
namespace CoinLedger.Ripemd160

structure State where
  a : UInt32
  b : UInt32
  c : UInt32
  d : UInt32
  e : UInt32
deriving DecidableEq

def State.initial : State :=
  ⟨0x67452301, 0xefcdab89, 0x98badcfe, 0x10325476, 0xc3d2e1f0⟩

/-- Sixteen rounds of one line: the mixing function, the constant, and for each round the word of
the block that it takes and its rotation. -/
structure Stage where
  mix : UInt32 → UInt32 → UInt32 → UInt32
  constant : UInt32
  words : List Nat
  rotations : List UInt32

def mix₁ (x y z : UInt32) : UInt32 := x ^^^ y ^^^ z

def mix₂ (x y z : UInt32) : UInt32 := (x &&& y) ||| (~~~x &&& z)

def mix₃ (x y z : UInt32) : UInt32 := (x ||| ~~~y) ^^^ z

def mix₄ (x y z : UInt32) : UInt32 := (x &&& z) ||| (y &&& ~~~z)

def mix₅ (x y z : UInt32) : UInt32 := x ^^^ (y ||| ~~~z)

def leftLine : List Stage :=
  [⟨mix₁, 0x00000000, [0, 1, 2, 3, 4, 5, 6, 7, 8, 9, 10, 11, 12, 13, 14, 15],
    [11, 14, 15, 12, 5, 8, 7, 9, 11, 13, 14, 15, 6, 7, 9, 8]⟩,
   ⟨mix₂, 0x5a827999, [7, 4, 13, 1, 10, 6, 15, 3, 12, 0, 9, 5, 2, 14, 11, 8],
    [7, 6, 8, 13, 11, 9, 7, 15, 7, 12, 15, 9, 11, 7, 13, 12]⟩,
   ⟨mix₃, 0x6ed9eba1, [3, 10, 14, 4, 9, 15, 8, 1, 2, 7, 0, 6, 13, 11, 5, 12],
    [11, 13, 6, 7, 14, 9, 13, 15, 14, 8, 13, 6, 5, 12, 7, 5]⟩,
   ⟨mix₄, 0x8f1bbcdc, [1, 9, 11, 10, 0, 8, 12, 4, 13, 3, 7, 15, 14, 5, 6, 2],
    [11, 12, 14, 15, 14, 15, 9, 8, 9, 14, 5, 6, 8, 6, 5, 12]⟩,
   ⟨mix₅, 0xa953fd4e, [4, 0, 5, 9, 7, 12, 2, 10, 14, 1, 3, 8, 11, 6, 15, 13],
    [9, 15, 5, 11, 6, 8, 13, 12, 5, 12, 13, 14, 11, 8, 5, 6]⟩]

def rightLine : List Stage :=
  [⟨mix₅, 0x50a28be6, [5, 14, 7, 0, 9, 2, 11, 4, 13, 6, 15, 8, 1, 10, 3, 12],
    [8, 9, 9, 11, 13, 15, 15, 5, 7, 7, 8, 11, 14, 14, 12, 6]⟩,
   ⟨mix₄, 0x5c4dd124, [6, 11, 3, 7, 0, 13, 5, 10, 14, 15, 8, 12, 4, 9, 1, 2],
    [9, 13, 15, 7, 12, 8, 9, 11, 7, 7, 12, 7, 6, 15, 13, 11]⟩,
   ⟨mix₃, 0x6d703ef3, [15, 5, 1, 3, 7, 14, 6, 9, 11, 8, 12, 2, 10, 0, 4, 13],
    [9, 7, 15, 11, 8, 6, 6, 14, 12, 13, 5, 14, 13, 13, 7, 5]⟩,
   ⟨mix₂, 0x7a6d76e9, [8, 6, 4, 1, 3, 11, 15, 0, 5, 12, 2, 13, 9, 7, 10, 14],
    [15, 5, 8, 11, 14, 14, 6, 14, 6, 9, 12, 9, 12, 5, 15, 8]⟩,
   ⟨mix₁, 0x00000000, [12, 15, 10, 4, 1, 5, 8, 7, 6, 2, 13, 14, 0, 3, 9, 11],
    [8, 5, 12, 9, 12, 5, 14, 6, 8, 13, 6, 5, 15, 13, 11, 11]⟩]

def State.round (s : State) (mix : UInt32 → UInt32 → UInt32 → UInt32)
    (constant word rotation : UInt32) : State :=
  ⟨s.e, rotateLeft32 (s.a + mix s.b s.c s.d + word + constant) rotation + s.e, s.b,
    rotateLeft32 s.c 10, s.d⟩

def State.sixteen (block : List UInt32) (stage : Stage) : State → List Nat → List UInt32 → State
  | s, word :: words, rotation :: rotations =>
    State.sixteen block stage
      (s.round stage.mix stage.constant (block.getD word 0) rotation) words rotations
  | s, _, _ => s

def State.line (s : State) (block : List UInt32) (stages : List Stage) : State :=
  stages.foldl (fun s stage => s.sixteen block stage stage.words stage.rotations) s

def State.compress (s : State) (block : Bytes) : State :=
  let words := wordsLowFirst block
  let l := s.line words leftLine
  let r := s.line words rightLine
  ⟨s.b + l.c + r.d, s.c + l.d + r.e, s.d + l.e + r.a, s.e + l.a + r.b, s.a + l.b + r.c⟩

def State.digest (s : State) : Digest 20 where
  bytes := [s.a, s.b, s.c, s.d, s.e].flatMap fun word => littleEndian 4 word.toNat
  length_bytes := by simp [length_littleEndian]

end CoinLedger.Ripemd160

namespace CoinLedger

def ripemd160 (message : Bytes) : Digest 20 :=
  let padded := padBlocks littleEndian message
  (foldBlocks 64 Ripemd160.State.compress (padded.length / 64) .initial padded).digest

def hash160 (message : Bytes) : Digest 20 :=
  ripemd160 (sha256 message).bytes

end CoinLedger

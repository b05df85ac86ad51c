import CoinLedger.Bytes

/-! What the digest functions share: words of 32 bits, rotations, padding to blocks of 64 bytes,
and a fold over blocks. `length_padBlocks` says that padding leaves whole blocks only. -/
namespace CoinLedger

def rotateLeft32 (word count : UInt32) : UInt32 :=
  word <<< count ||| word >>> (32 - count)

def rotateRight32 (word count : UInt32) : UInt32 :=
  word >>> count ||| word <<< (32 - count)

/-- The 32-bit words spelled highest byte first; an incomplete last word is left out. -/
def wordsHighFirst : Bytes → List UInt32
  | a :: b :: c :: d :: rest =>
    (a.toUInt32 <<< 24 ||| b.toUInt32 <<< 16 ||| c.toUInt32 <<< 8 ||| d.toUInt32)
      :: wordsHighFirst rest
  | _ => []

/-- The 32-bit words spelled lowest byte first; an incomplete last word is left out. -/
def wordsLowFirst : Bytes → List UInt32
  | a :: b :: c :: d :: rest =>
    (d.toUInt32 <<< 24 ||| c.toUInt32 <<< 16 ||| b.toUInt32 <<< 8 ||| a.toUInt32)
      :: wordsLowFirst rest
  | _ => []

/-- A message closed by a one bit, by zero bits up to whole blocks of 64 bytes, and by its length
in bits, which `spell` writes in the last eight bytes. -/
def padBlocks (spell : Nat → Nat → Bytes) (message : Bytes) : Bytes :=
  message ++ 0x80 :: (List.replicate ((119 - message.length % 64) % 64) 0
    ++ spell 8 (8 * message.length))

/-- Run a step over the first `count` blocks of `size` bytes. -/
def foldBlocks (size : Nat) (step : σ → Bytes → σ) : Nat → σ → Bytes → σ
  | 0, state, _ => state
  | count + 1, state, bytes =>
    foldBlocks size step count (step state (bytes.take size)) (bytes.drop size)

theorem length_padBlocks (spell : Nat → Nat → Bytes) (message : Bytes)
    (spell_length : ∀ n, (spell 8 n).length = 8) :
    (padBlocks spell message).length % 64 = 0 := by
  simp only [padBlocks, List.length_append, List.length_cons, List.length_replicate, spell_length]
  omega

end CoinLedger

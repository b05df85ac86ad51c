import CoinLedger.Digest.Basic
import CoinLedger.Digest.Words

/-! The Keccak-256 digest with the padding that the SHA-3 standard later changed: one byte `01`,
zeros, and the top bit of the block. The state is 25 lanes of 64 bits; lane `(x, y)` stands at
place `x + 5 * y`. -/
namespace CoinLedger.Keccak256

abbrev Lanes := List UInt64

/-- Bytes of the state that take in message bytes. -/
def rate : Nat := 136

def roundConstants : Lanes :=
  [0x0000000000000001, 0x0000000000008082, 0x800000000000808a, 0x8000000080008000,
   0x000000000000808b, 0x0000000080000001, 0x8000000080008081, 0x8000000000008009,
   0x000000000000008a, 0x0000000000000088, 0x0000000080008009, 0x000000008000000a,
   0x000000008000808b, 0x800000000000008b, 0x8000000000008089, 0x8000000000008003,
   0x8000000000008002, 0x8000000000000080, 0x000000000000800a, 0x800000008000000a,
   0x8000000080008081, 0x8000000000008080, 0x0000000080000001, 0x8000000080008008]

/-- By how much the lane at each place turns. -/
def rotations : Lanes :=
  [0, 1, 62, 28, 27, 36, 44, 6, 55, 20, 3, 10, 43, 25, 39, 41, 45, 15, 21, 8, 18, 2, 61, 56, 14]

def rotateLeft64 (lane count : UInt64) : UInt64 :=
  lane <<< count ||| lane >>> (64 - count)

def lane (lanes : Lanes) (x y : Nat) : UInt64 :=
  lanes.getD (x % 5 + 5 * (y % 5)) 0

def ofCoordinates (f : Nat → Nat → UInt64) : Lanes :=
  (List.range 25).map fun place => f (place % 5) (place / 5)

/-- Add to each lane the parities of two neighbouring columns. -/
def mixColumns (lanes : Lanes) : Lanes :=
  let parity := (List.range 5).map fun x =>
    lane lanes x 0 ^^^ lane lanes x 1 ^^^ lane lanes x 2 ^^^ lane lanes x 3 ^^^ lane lanes x 4
  let column (x : Nat) : UInt64 := parity.getD (x % 5) 0
  ofCoordinates fun x y => lane lanes x y ^^^ column (x + 4) ^^^ rotateLeft64 (column (x + 1)) 1

/-- Turn each lane and move it to its new place. -/
def disperse (lanes : Lanes) : Lanes :=
  let turned := lanes.zipWith rotateLeft64 rotations
  ofCoordinates fun x y => lane turned (x + 3 * y) x

/-- Combine each lane with the next two of its row. -/
def mixRows (lanes : Lanes) : Lanes :=
  ofCoordinates fun x y => lane lanes x y ^^^ (~~~lane lanes (x + 1) y &&& lane lanes (x + 2) y)

def round (lanes : Lanes) (constant : UInt64) : Lanes :=
  match mixRows (disperse (mixColumns lanes)) with
  | first :: rest => (first ^^^ constant) :: rest
  | [] => []

def permute (lanes : Lanes) : Lanes :=
  roundConstants.foldl round lanes

/-- The lanes spelled lowest byte first. -/
def lanesOf : Bytes → Lanes
  | a :: b :: c :: d :: e :: f :: g :: h :: rest =>
    (h.toUInt64 <<< 56 ||| g.toUInt64 <<< 48 ||| f.toUInt64 <<< 40 ||| e.toUInt64 <<< 32
      ||| d.toUInt64 <<< 24 ||| c.toUInt64 <<< 16 ||| b.toUInt64 <<< 8 ||| a.toUInt64)
      :: lanesOf rest
  | _ => []

/-- Add a block to the lanes it covers; the others stay. -/
def addBlock : Lanes → Lanes → Lanes
  | lane :: lanes, word :: words => (lane ^^^ word) :: addBlock lanes words
  | lanes, _ => lanes

def absorb (lanes : Lanes) (block : Bytes) : Lanes :=
  permute (addBlock lanes (lanesOf block))

def pad (message : Bytes) : Bytes :=
  match rate - message.length % rate with
  | 1 => message ++ [0x81]
  | room => message ++ 0x01 :: (List.replicate (room - 2) 0 ++ [0x80])

def digest (lanes : Lanes) : Hash where
  bytes := [lane lanes 0 0, lane lanes 1 0, lane lanes 2 0, lane lanes 3 0].flatMap
    fun lane => littleEndian 8 lane.toNat
  length_bytes := by simp [length_littleEndian]

end CoinLedger.Keccak256

namespace CoinLedger

def keccak256 (message : Bytes) : Hash :=
  let padded := Keccak256.pad message
  Keccak256.digest (foldBlocks Keccak256.rate Keccak256.absorb
    (padded.length / Keccak256.rate) (List.replicate 25 0) padded)

end CoinLedger

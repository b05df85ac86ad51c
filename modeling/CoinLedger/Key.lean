import CoinLedger.Bytes
import CoinLedger.Curve.Point

/-! Secret and public keys with their byte forms. -/
namespace CoinLedger
open Curve

structure SecretKey where
  scalar : Nat
  pos : 0 < scalar
  lt_order : scalar < order
deriving DecidableEq

namespace SecretKey

/-- A secret key is spelled by exactly 32 bytes. -/
def ofBytes? (bytes : Bytes) : Option SecretKey :=
  let scalar := bigEndianValue bytes
  if bytes.length ≠ 32 then none
  else if h : 0 < scalar ∧ scalar < order then some ⟨scalar, h.1, h.2⟩
  else none

def bytes (key : SecretKey) : Bytes :=
  bigEndian 32 key.scalar

end SecretKey

/-- A public key: the coordinates of a point of the curve. -/
structure PublicKey where
  x : FieldElem
  y : FieldElem
deriving DecidableEq

namespace PublicKey

def coordinate? (bytes : Bytes) : Option FieldElem :=
  let value := bigEndianValue bytes
  if h : value < fieldPrime then some ⟨value, h⟩ else none

/-- The key with this first coordinate, and with an odd second one if `odd`. -/
def ofCompressed? (odd : Bool) (bytes : Bytes) : Option PublicKey := do
  let x ← coordinate? bytes
  let y ← FieldElem.sqrt? (x * x * x + 7)
  some ⟨x, if (y.val % 2 = 1) = odd then y else -y⟩

/-- The key with these two coordinates, which have to lie on the curve. -/
def ofCoordinates? (bytes : Bytes) : Option PublicKey := do
  let x ← coordinate? (bytes.take 32)
  let y ← coordinate? (bytes.drop 32)
  if y * y = x * x * x + 7 then some ⟨x, y⟩ else none

/-- Read a key from its short form of 33 bytes or from a long form of 65. The tags 6 and 7 of the
long form also state whether the second coordinate is even or odd. -/
def ofBytes? (bytes : Bytes) : Option PublicKey :=
  match bytes with
  | [] => none
  | tag :: rest =>
    if rest.length = 32 then
      if tag = 2 then ofCompressed? false rest
      else if tag = 3 then ofCompressed? true rest
      else none
    else if rest.length = 64 then
      if tag = 4 then ofCoordinates? rest
      else if tag = 6 then (ofCoordinates? rest).filter fun key => key.y.val % 2 = 0
      else if tag = 7 then (ofCoordinates? rest).filter fun key => key.y.val % 2 = 1
      else none
    else none

/-- The short form: a tag for the parity of the second coordinate, then the first coordinate. -/
def bytes (key : PublicKey) : Bytes :=
  (if key.y.val % 2 = 0 then 2 else 3) :: bigEndian 32 key.x.val

def point (key : PublicKey) : Point := ⟨key.x, key.y, 1⟩

end PublicKey

/-- The public key of a secret key. No multiple of the generator by a scalar below the order is
infinity, so the fallback is never taken. -/
def SecretKey.publicKey (key : SecretKey) : PublicKey :=
  match (Point.generator.multiple key.scalar).affine? with
  | some (x, y) => ⟨x, y⟩
  | none => ⟨0, 0⟩

end CoinLedger

import CoinLedger.Digest.Hmac
import CoinLedger.Key

/-! Signatures over digests, on the curve secp256k1. A signature is the pair of scalars `(r, s)` in
64 bytes. The secret nonce is drawn from the key and the digest, so signing is a function, and `s`
is always the smaller of its two values, which is the only one that verifies. -/
namespace CoinLedger
open Curve

/-- The number signed for a digest. -/
def digestScalar (digest : Hash) : Nat :=
  bigEndianValue digest.bytes % order

/-- A source of nonces: a chain of keyed digests. -/
structure NonceSource where
  key : Hash
  value : Hash

namespace NonceSource

def stir (source : NonceSource) (tag : UInt8) (seed : Bytes) : NonceSource :=
  let key := hmacSha256 source.key.bytes (source.value.bytes ++ tag :: seed)
  ⟨key, hmacSha256 key.bytes source.value.bytes⟩

def initial : NonceSource where
  key := ⟨List.replicate 32 0, by simp⟩
  value := ⟨List.replicate 32 1, by simp⟩

/-- The source for a key and a digest, which enters as the number that is signed for it. -/
def ofSeed (key : SecretKey) (digest : Hash) : NonceSource :=
  let seed := key.bytes ++ bigEndian 32 (digestScalar digest)
  (initial.stir 0 seed).stir 1 seed

def draw (source : NonceSource) : NonceSource :=
  { source with value := hmacSha256 source.key.bytes source.value.bytes }

end NonceSource

structure Signature where
  r : Nat
  s : Nat
deriving DecidableEq

namespace Signature

def bytes (signature : Signature) : Bytes :=
  bigEndian 32 signature.r ++ bigEndian 32 signature.s

/-- Both scalars are below the order and take 32 bytes each. -/
def ofBytes? (bytes : Bytes) : Option Signature :=
  let r := bigEndianValue (bytes.take 32)
  let s := bigEndianValue (bytes.drop 32)
  if bytes.length = 64 ∧ r < order ∧ s < order then some ⟨r, s⟩ else none

/-- The signature made with one nonce, unless the nonce does not serve. -/
def ofNonce? (key : SecretKey) (digest : Hash) (nonce : Nat) : Option Signature :=
  if nonce = 0 ∨ order ≤ nonce then none
  else
    match (Point.generator.multiple nonce).affine? with
    | none => none
    | some (x, _) =>
      let r := x.val % order
      let s := scalarInverse nonce * (digestScalar digest + r * key.scalar) % order
      if r = 0 ∨ s = 0 then none
      else some ⟨r, if order / 2 < s then order - s else s⟩

/-- Try the next `count` nonces of a source. -/
def search (key : SecretKey) (digest : Hash) : Nat → NonceSource → Option Signature
  | 0, _ => none
  | count + 1, source =>
    let drawn := source.draw
    match ofNonce? key digest (bigEndianValue drawn.value.bytes) with
    | some signature => some signature
    | none => search key digest count (drawn.stir 0 [])

def verifies (signature : Signature) (key : PublicKey) (digest : Hash) : Bool :=
  if signature.r = 0 ∨ signature.s = 0 ∨ order / 2 < signature.s then false
  else
    let inverse := scalarInverse signature.s
    let left := Point.generator.multiple (digestScalar digest * inverse % order)
    let right := key.point.multiple (signature.r * inverse % order)
    match (left.add right).affine? with
    | none => false
    | some (x, _) => x.val % order = signature.r

end Signature

/-- Sign a digest. A nonce fails to serve about once in `2 ^ 127` draws, so of 128 one does. -/
def sign (digest : Hash) (key : SecretKey) : Bytes :=
  match Signature.search key digest 128 (.ofSeed key digest) with
  | some signature => signature.bytes
  | none => List.replicate 64 0

/-- Whether these bytes are a signature of the digest by the key that those bytes spell. -/
def verifySignature (signature publicKey : Bytes) (digest : Hash) : Bool :=
  match PublicKey.ofBytes? publicKey, Signature.ofBytes? signature with
  | some key, some signature => signature.verifies key digest
  | _, _ => false

end CoinLedger

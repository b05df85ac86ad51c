import CoinLedger.Digest.Sha256

/-! Keyed digests: HMAC over SHA-256. -/
namespace CoinLedger

/-- A key filled up with zeros to one block of 64 bytes; a longer key is digested first. -/
def hmacKey (key : Bytes) : Bytes :=
  let short := if key.length > 64 then (sha256 key).bytes else key
  short ++ List.replicate (64 - short.length) 0

/-- The HMAC of a message under a key, with SHA-256. -/
def hmacSha256 (key message : Bytes) : Hash :=
  let inner := sha256 ((hmacKey key).map (· ^^^ 0x36) ++ message)
  sha256 ((hmacKey key).map (· ^^^ 0x5c) ++ inner.bytes)

end CoinLedger

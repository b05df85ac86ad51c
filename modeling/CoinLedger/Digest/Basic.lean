import CoinLedger.Bytes

/-! Digests: byte strings of a fixed width, ordered as byte strings. -/
namespace CoinLedger
open Std

/-- A byte string of exactly `width` bytes. -/
@[ext]
structure Digest (width : Nat) where
  bytes : Bytes
  length_bytes : bytes.length = width
deriving DecidableEq

/-- The width of transaction ids, Merkle nodes and block hashes. -/
abbrev Hash := Digest 32

namespace Digest

/-- Byte strings of any other width are no digest. -/
def ofBytes? (width : Nat) (bytes : Bytes) : Option (Digest width) :=
  if h : bytes.length = width then some ⟨bytes, h⟩ else none

instance : Ord (Digest width) := ⟨compareOn bytes⟩

instance : TransOrd (Digest width) := inferInstanceAs <| TransCmp (compareOn _)

instance : LawfulEqOrd (Digest width) where
  eq_of_compare h := Digest.ext (LawfulEqOrd.eq_of_compare h)

theorem ofBytes?_bytes (digest : Digest width) : ofBytes? width digest.bytes = some digest := by
  simp [ofBytes?, digest.length_bytes]

end Digest
end CoinLedger

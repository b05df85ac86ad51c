import CoinLedger.Block.Basic
import CoinLedger.Decimal

/-! Making blocks: a candidate with its coinbase, and the search for a nonce. -/
namespace CoinLedger

def rewardCoinbase (lock : Script) (reward : Amount) : Transaction :=
  .coinbase [⟨reward, lock⟩]

/-- A block not yet mined: a coinbase, the given transactions, and a header that commits to them. -/
def Block.assemble (lock : Script) (reward : Amount) (transactions : List Transaction)
    (previous : Hash) (time : UInt64) : Block :=
  let all := rewardCoinbase lock reward :: transactions
  let root := (transactionRoot? all).get (by simp [all, transactionRoot?, isSome_merkleRoot?])
  ⟨⟨previous, root, time, 0⟩, all⟩

/-- How many zeros the hexadecimal text of a hash starts with. -/
def leadingZeros (hash : Hash) : Nat :=
  ((hexDigits hash.bytes).takeWhile (· = '0')).length

def meetsTarget (hash : Hash) (zeros : Nat) : Bool :=
  zeros ≤ leadingZeros hash

/-- Try up to `attempts` nonces, from that of the header upwards and not past the largest. Found or
not, the header comes back with the nonce at which the search stopped. -/
def Header.search (zeros : Nat) : Nat → Header → Bool × Header
  | 0, header => (false, header)
  | attempts + 1, header =>
    if meetsTarget header.hash zeros then (true, header)
    else if header.nonce.toNat + 1 < UInt64.size then
      search zeros attempts { header with nonce := header.nonce + 1 }
    else (false, header)

/-- More zeros were asked for than a hash has hexadecimal digits. -/
structure TargetOutOfReach where
  zeros : UInt64
deriving DecidableEq

def TargetOutOfReach.message (fault : TargetOutOfReach) : String :=
  decimalText fault.zeros.toNat ++ " leading zeros exceed the 64 hex digits of a hash"

/-- Search for a nonce; the answer says whether one was found. -/
def Block.mine (block : Block) (zeros attempts : UInt64) :
    Except TargetOutOfReach (Bool × Block) :=
  if 64 < zeros then .error ⟨zeros⟩
  else
    let (found, header) := block.header.search zeros.toNat attempts.toNat
    .ok (found, { block with header })

end CoinLedger

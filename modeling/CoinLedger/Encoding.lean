import CoinLedger.Bytes

/-! The canonical byte forms that digests are taken over: numbers in the fewest of four widths, and
everything of variable length behind its length. -/
namespace CoinLedger

/-- A number in one, three, five or nine bytes; the first byte of a longer form names its width. -/
def compactSize (n : Nat) : Bytes :=
  if n < 0xfd then littleEndian 1 n
  else if n ≤ 0xffff then 0xfd :: littleEndian 2 n
  else if n ≤ 0xffffffff then 0xfe :: littleEndian 4 n
  else 0xff :: littleEndian 8 n

/-- A byte string behind its length. -/
def sizedBytes (bytes : Bytes) : Bytes :=
  compactSize bytes.length ++ bytes

/-- The forms of the items behind their number. -/
def sizedList (form : α → Bytes) (items : List α) : Bytes :=
  compactSize items.length ++ items.flatMap form

end CoinLedger

import CoinLedger.Settings.Basic

/-! Settings from environment variables. A variable that spells no number in the range of its field
changes nothing. -/
namespace CoinLedger

/-- The number spelled by one or more decimal digits. -/
def numeral? (text : List Char) : Option Nat :=
  if !text.isEmpty && text.all Char.isDigit then some (Nat.ofDigitChars 10 text 0) else none

/-- The number spelled by digits, with or without a plus sign before them. -/
def unsigned? : List Char → Option Nat
  | '+' :: digits => numeral? digits
  | digits => numeral? digits

/-- The number spelled by digits, with or without a sign before them. -/
def signed? : List Char → Option Int
  | '-' :: digits => (numeral? digits).map fun n => -(n : Int)
  | text => (unsigned? text).map fun n => (n : Int)

def amountOf? (text : String) : Option Amount :=
  ((signed? text.toList).filter fun n =>
    Int64.minValue.toInt ≤ n && n ≤ Int64.maxValue.toInt).map Int64.ofInt

def countOf? (text : String) : Option UInt64 :=
  ((unsigned? text.toList).filter fun n => n < UInt64.size).map UInt64.ofNat

namespace Settings

/-- Override settings by the variables that `lookup` knows. -/
def override (settings : Settings) (lookup : String → Option String) : Settings where
  blockReward :=
    ((lookup "UTXO_CONSENSUS_BLOCK_REWARD").bind amountOf?).getD settings.blockReward
  leadingZeros :=
    ((lookup "UTXO_CONSENSUS_POW_LEADING_ZEROS").bind countOf?).getD settings.leadingZeros
  maxAttempts :=
    ((lookup "UTXO_CONSENSUS_MAX_MINING_ATTEMPTS").bind countOf?).getD settings.maxAttempts

/-- The defaults, overridden by an environment. -/
def ofEnvironment (lookup : String → Option String) : Settings :=
  override {} lookup

end Settings
end CoinLedger

import CoinLedger.Json.Form
import CoinLedger.Money

/-! The settings for making blocks: what they may be, their JSON form, and how the environment
overrides them. -/
namespace CoinLedger

structure Settings where
  /-- What a new block pays to its coinbase. -/
  blockReward : Amount := 50
  /-- How many zeros the hexadecimal text of a mined hash starts with. -/
  leadingZeros : UInt64 := 4
  /-- How many nonces are tried for one block. -/
  maxAttempts : UInt64 := 10000000
deriving DecidableEq

inductive SettingsFault where
  | unreadable
  | rewardOutOfRange (reward : Amount)
  | tooManyZeros (zeros : UInt64)
deriving DecidableEq

def SettingsFault.message : SettingsFault → String
  | unreadable => "the text is not the JSON form of settings"
  | rewardOutOfRange reward =>
    "block reward " ++ String.ofList (Json.decimal reward.toInt) ++ " outside [0, "
      ++ String.ofList (Json.decimal maxMoney.toInt) ++ "]"
  | tooManyZeros zeros => "pow_leading_zeros " ++ decimalText zeros.toNat ++ " exceeds 64"

namespace Settings
open Json JsonForm

/-- What is wrong with settings under which no block could be made. -/
def fault? (settings : Settings) : Option SettingsFault :=
  if !inMoneyRange settings.blockReward then some (.rewardOutOfRange settings.blockReward)
  else if 64 < settings.leadingZeros then some (.tooManyZeros settings.leadingZeros)
  else none

def fields (settings : Settings) : List (String × Value) :=
  [("block_reward", write settings.blockReward),
    ("pow_leading_zeros", write settings.leadingZeros),
    ("max_mining_attempts", write settings.maxAttempts)]

/-- The JSON text of settings, one field on each line. -/
def toJson (settings : Settings) : String :=
  linewise settings.fields

def readField? [JsonForm α] (default : α) : Option Value → Option α
  | none => some default
  | some value => read? value

/-- Read settings; a missing field takes its default. -/
def read? (value : Value) : Option Settings := do
  let [reward, zeros, attempts] ←
    fields? ["block_reward", "pow_leading_zeros", "max_mining_attempts"] value | none
  let default : Settings := {}
  some ⟨← readField? default.blockReward reward, ← readField? default.leadingZeros zeros,
    ← readField? default.maxAttempts attempts⟩

/-- The settings that a JSON text spells, if they are sound. -/
def ofJson? (text : String) : Except SettingsFault Settings :=
  match (parse? text).bind read? with
  | none => .error .unreadable
  | some settings =>
    match settings.fault? with
    | some fault => .error fault
    | none => .ok settings

end Settings
end CoinLedger

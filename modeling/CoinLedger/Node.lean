import CoinLedger.Block.Connect
import CoinLedger.Block.Mining
import CoinLedger.Settings.Basic

/-! A node: sound settings, and the making and connecting of blocks under them. -/
namespace CoinLedger

/-- What a caller may be told instead of an answer. -/
inductive Error where
  | script (fault : Fault)
  | target (fault : TargetOutOfReach)
  | settings (fault : SettingsFault)
deriving DecidableEq

def Error.message : Error → String
  | script fault => "Script execution failed: " ++ fault.message
  | target fault => "Invalid proof of work: " ++ fault.message
  | settings fault => "Configuration error: " ++ fault.message

structure Node where
  settings : Settings
  sound : settings.fault? = none

namespace Node

def standard : Node := ⟨{}, by decide⟩

def ofSettings? (settings : Settings) : Except Error Node :=
  match sound : settings.fault? with
  | some fault => .error (.settings fault)
  | none => .ok ⟨settings, sound⟩

def ofJson? (text : String) : Except Error Node :=
  match Settings.ofJson? text with
  | .error fault => .error (.settings fault)
  | .ok settings => ofSettings? settings

def eval (script : Script) (tx : Transaction) (input : Nat) : Except Error Outcome :=
  (script.eval tx input).mapError .script

def assemble (node : Node) (lock : Script) (transactions : List Transaction) (previous : Hash)
    (time : UInt64) : Block :=
  Block.assemble lock node.settings.blockReward transactions previous time

def mine (node : Node) (block : Block) : Except Error (Bool × Block) :=
  (block.mine node.settings.leadingZeros node.settings.maxAttempts).mapError .target

end Node
end CoinLedger

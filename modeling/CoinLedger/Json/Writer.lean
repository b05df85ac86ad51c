import CoinLedger.Decimal
import CoinLedger.Json.Value

/-! Writing JSON: compactly, or as a record with one field on each line. -/
namespace CoinLedger.Json

def fourDigits (unit : Nat) : List Char :=
  [unit / 4096 % 16, unit / 256 % 16, unit / 16 % 16, unit % 16].map Nat.digitChar

def Symbol.write : Symbol → List Char
  | scalar '"' => ['\\', '"']
  | scalar '\\' => ['\\', '\\']
  | scalar '\x08' => ['\\', 'b']
  | scalar '\x0c' => ['\\', 'f']
  | scalar '\n' => ['\\', 'n']
  | scalar '\r' => ['\\', 'r']
  | scalar '\t' => ['\\', 't']
  | scalar char => if char < ' ' then '\\' :: 'u' :: fourDigits char.toNat else [char]
  | half unit => '\\' :: 'u' :: fourDigits unit.toNat

def quoted (symbols : List Symbol) : List Char :=
  '"' :: (symbols.flatMap Symbol.write ++ ['"'])

def decimal : Int → List Char
  | .ofNat n => decimalDigits n
  | .negSucc n => '-' :: decimalDigits (n + 1)

/-- Any other number is written as minus zero, which is no integer either. -/
def Number.write : Number → List Char
  | integer value => decimal value
  | other => ['-', '0']

mutual

/-- A value without any blanks. -/
def Value.write : Value → List Char
  | .null => "null".toList
  | .bool true => "true".toList
  | .bool false => "false".toList
  | .number value => value.write
  | .string symbols => quoted symbols
  | .array items => '[' :: writeItems items
  | .object members => '{' :: writeMembers members

/-- The values of an array and its closing bracket. -/
def writeItems : List Value → List Char
  | [] => [']']
  | [item] => item.write ++ [']']
  | item :: items => item.write ++ ',' :: writeItems items

/-- The members of an object and its closing brace. -/
def writeMembers : List (List Symbol × Value) → List Char
  | [] => ['}']
  | [(key, value)] => quoted key ++ ':' :: value.write ++ ['}']
  | (key, value) :: members => quoted key ++ ':' :: value.write ++ ',' :: writeMembers members

end

def Value.compact (value : Value) : String :=
  String.ofList value.write

/-- A record with one field on each line, two blanks in from its braces. -/
def linewise (fields : List (String × Value)) : String :=
  let line (field : String × Value) : String :=
    "  " ++ String.ofList (quoted (symbols field.1)) ++ ": " ++ field.2.compact
  "\x7b\n" ++ ",\n".intercalate (fields.map line) ++ "\n\x7d"

end CoinLedger.Json

/-! JSON values. A string is a list of symbols, because an escape may spell one half of a pair that
has no other half; such a string is well formed as JSON and still is no text. -/
namespace CoinLedger.Json

/-- What one place of a string holds: a character, or half of a surrogate pair. -/
inductive Symbol where
  | scalar (char : Char)
  | half (unit : UInt16)
deriving DecidableEq

/-- A number, as far as it matters: an integer written as one, or any other. Minus zero is not an
integer, and neither is a number with a fraction or an exponent. -/
inductive Number where
  | integer (value : Int)
  | other
deriving DecidableEq

inductive Value where
  | null
  | bool (value : Bool)
  | number (value : Number)
  | string (symbols : List Symbol)
  | array (items : List Value)
  | object (members : List (List Symbol × Value))

def symbols (text : String) : List Symbol :=
  text.toList.map .scalar

def Symbol.char? : Symbol → Option Char
  | scalar char => some char
  | half _ => none

/-- The text that the symbols spell, if every one is a character. -/
def text? (symbols : List Symbol) : Option String :=
  (symbols.mapM Symbol.char?).map String.ofList

theorem text?_symbols (text : String) : text? (symbols text) = some text := by
  have all (chars : List Char) : (chars.map Symbol.scalar).mapM Symbol.char? = some chars := by
    induction chars with
    | nil => rfl
    | cons char rest ih => simp [Symbol.char?, ih]
  simp [text?, symbols, all]

end CoinLedger.Json

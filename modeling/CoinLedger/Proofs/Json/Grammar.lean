import CoinLedger.Json.Reader

/-! The grammar of JSON: which texts spell which values. One value has many spellings, with blanks
between its parts, with escapes in its strings and with numbers of any shape. A spelling is put
together from those of its parts, and none of the relations knows how far a reader has come or what
it tries first. -/
namespace CoinLedger.Json

/-- Nothing but blanks. -/
def Blank (text : List Char) : Prop := ∀ char ∈ text, isBlank char = true

/-- One or more decimal digits. -/
structure Digits (text : List Char) : Prop where
  ne_nil : text ≠ []
  isDigit : ∀ char ∈ text, char.isDigit = true

/-- The digits before any fraction, where a zero in front stands alone. -/
structure Whole (text : List Char) : Prop extends Digits text where
  zero_alone : text.head? = some '0' → text.length = 1

inductive Fraction : List Char → Prop
  | absent : Fraction []
  | point {digits : List Char} (h : Digits digits) : Fraction ('.' :: digits)

inductive Exponent : List Char → Prop
  | absent : Exponent []
  | power {marker : Char} {sign digits : List Char} (hm : marker = 'e' ∨ marker = 'E')
    (hs : sign = [] ∨ sign = ['+'] ∨ sign = ['-']) (h : Digits digits) :
    Exponent (marker :: (sign ++ digits))

/-- An integer is written without a fraction and without an exponent, and is not minus zero. -/
inductive SpellsNumber : List Char → Number → Prop
  | natural {digits : List Char} (h : Whole digits) :
    SpellsNumber digits (.integer (Nat.ofDigitChars 10 digits 0))
  | negative {digits : List Char} (h : Whole digits) (hz : Nat.ofDigitChars 10 digits 0 ≠ 0) :
    SpellsNumber ('-' :: digits) (.integer (-Nat.ofDigitChars 10 digits 0))
  | minusZero : SpellsNumber ['-', '0'] .other
  | other {sign digits fraction exponent : List Char} (hs : sign = [] ∨ sign = ['-'])
    (h : Whole digits) (hf : Fraction fraction) (he : Exponent exponent)
    (hn : fraction ≠ [] ∨ exponent ≠ []) :
    SpellsNumber (sign ++ (digits ++ (fraction ++ exponent))) .other

/-- What stands between the quotes of a string. Two halves that follow each other are joined, if
they make a character together. -/
inductive SpellsString : List Char → List Symbol → Prop
  | nil : SpellsString [] []
  | plain {char : Char} {text : List Char} {symbols : List Symbol} (hq : char ≠ '"')
    (hb : char ≠ '\\') (hc : ¬char < ' ') (h : SpellsString text symbols) :
    SpellsString (char :: text) (.scalar char :: symbols)
  | escaped {mark char : Char} {text : List Char} {symbols : List Symbol}
    (hm : escaped? mark = some char) (h : SpellsString text symbols) :
    SpellsString ('\\' :: mark :: text) (.scalar char :: symbols)
  | unit {a b c d : Char} {unit : Nat} {text : List Char} {symbols : List Symbol}
    (hu : unit? a b c d = some unit) (h : SpellsString text symbols) :
    SpellsString ('\\' :: 'u' :: a :: b :: c :: d :: text) (attach (.ofUnit unit) symbols)

mutual

/-- The text spells the value, with no blanks around it. -/
inductive Spells : List Char → Value → Prop
  | null : Spells ['n', 'u', 'l', 'l'] .null
  | yes : Spells ['t', 'r', 'u', 'e'] (.bool true)
  | no : Spells ['f', 'a', 'l', 's', 'e'] (.bool false)
  | number {text : List Char} {number : Number} (h : SpellsNumber text number) :
    Spells text (.number number)
  | string {text : List Char} {symbols : List Symbol} (h : SpellsString text symbols) :
    Spells ('"' :: (text ++ ['"'])) (.string symbols)
  | emptyArray {blanks : List Char} (h : Blank blanks) :
    Spells ('[' :: (blanks ++ [']'])) (.array [])
  | array {text : List Char} {items : List Value} (h : SpellsItems text items) :
    Spells ('[' :: text) (.array items)
  | emptyObject {blanks : List Char} (h : Blank blanks) :
    Spells ('{' :: (blanks ++ ['}'])) (.object [])
  | object {text : List Char} {members : List (List Symbol × Value)}
    (h : SpellsMembers text members) : Spells ('{' :: text) (.object members)

/-- The text spells the value, with or without blanks around it. -/
inductive SpellsPadded : List Char → Value → Prop
  | mk {before text after : List Char} {value : Value} (hb : Blank before) (h : Spells text value)
    (ha : Blank after) : SpellsPadded (before ++ (text ++ after)) value

/-- The values of an array and its closing bracket; there is at least one. -/
inductive SpellsItems : List Char → List Value → Prop
  | last {text : List Char} {item : Value} (h : SpellsPadded text item) :
    SpellsItems (text ++ [']']) [item]
  | more {text rest : List Char} {item : Value} {items : List Value} (h : SpellsPadded text item)
    (hr : SpellsItems rest items) : SpellsItems (text ++ ',' :: rest) (item :: items)

/-- A name, a colon and a value. -/
inductive SpellsMember : List Char → List Symbol × Value → Prop
  | mk {before key between text : List Char} {symbols : List Symbol} {value : Value}
    (hb : Blank before) (hk : SpellsString key symbols) (hc : Blank between)
    (h : SpellsPadded text value) :
    SpellsMember (before ++ '"' :: (key ++ '"' :: (between ++ ':' :: text))) (symbols, value)

/-- The members of an object and its closing brace; there is at least one. -/
inductive SpellsMembers : List Char → List (List Symbol × Value) → Prop
  | last {text : List Char} {member : List Symbol × Value} (h : SpellsMember text member) :
    SpellsMembers (text ++ ['}']) [member]
  | more {text rest : List Char} {member : List Symbol × Value}
    {members : List (List Symbol × Value)} (h : SpellsMember text member)
    (hr : SpellsMembers rest members) : SpellsMembers (text ++ ',' :: rest) (member :: members)

end

end CoinLedger.Json

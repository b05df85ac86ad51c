import CoinLedger.Json.Value

/-! Reading JSON, strictly: four blank characters, no leading zeros, no comma before a closing
bracket, no control character in a string, and nothing but blanks after the value. -/
namespace CoinLedger.Json

def isBlank (char : Char) : Bool :=
  char = ' ' || char = '\n' || char = '\t' || char = '\r'

def skipBlanks (text : List Char) : List Char :=
  text.dropWhile isBlank

def hexValue? (char : Char) : Option Nat :=
  if char.isDigit then some (char.toNat - '0'.toNat)
  else if 'a' ≤ char && char ≤ 'f' then some (char.toNat - 'a'.toNat + 10)
  else if 'A' ≤ char && char ≤ 'F' then some (char.toNat - 'A'.toNat + 10)
  else none

/-- The unit spelled by four hexadecimal digits. -/
def unit? (a b c d : Char) : Option Nat := do
  some (((← hexValue? a) * 16 + (← hexValue? b)) * 256 + ((← hexValue? c) * 16 + (← hexValue? d)))

def Symbol.ofUnit (unit : Nat) : Symbol :=
  if 0xd800 ≤ unit && unit < 0xe000 then half (UInt16.ofNat unit) else scalar (Char.ofNat unit)

/-- The character that a backslash makes of another one. -/
def escaped? : Char → Option Char
  | '"' => some '"'
  | '\\' => some '\\'
  | '/' => some '/'
  | 'b' => some '\x08'
  | 'f' => some '\x0c'
  | 'n' => some '\n'
  | 'r' => some '\r'
  | 't' => some '\t'
  | _ => none

/-- The character that two halves make together. -/
def joined? (high low : UInt16) : Option Char :=
  if high < 0xdc00 && 0xdc00 ≤ low then
    some (Char.ofNat (0x10000 + (high.toNat - 0xd800) * 0x400 + (low.toNat - 0xdc00)))
  else none

/-- Put a symbol in front of others; two halves that make a character become one symbol. -/
def attach : Symbol → List Symbol → List Symbol
  | .half high, .half low :: rest =>
    match joined? high low with
    | some char => .scalar char :: rest
    | none => .half high :: .half low :: rest
  | symbol, rest => symbol :: rest

/-- A string after its opening quote. -/
def string? : List Char → Option (List Symbol × List Char)
  | '"' :: rest => some ([], rest)
  | '\\' :: 'u' :: a :: b :: c :: d :: rest => do
    let unit ← unit? a b c d
    let (symbols, rest) ← string? rest
    some (attach (.ofUnit unit) symbols, rest)
  | '\\' :: char :: rest => do
    let char ← escaped? char
    let (symbols, rest) ← string? rest
    some (.scalar char :: symbols, rest)
  | char :: rest =>
    if char = '\\' || char < ' ' then none
    else do
      let (symbols, rest) ← string? rest
      some (.scalar char :: symbols, rest)
  | [] => none

def digits? (text : List Char) : Option (List Char × List Char) :=
  match text.takeWhile Char.isDigit with
  | [] => none
  | digits => some (digits, text.dropWhile Char.isDigit)

/-- The digits before any fraction: zero alone, or a first digit other than zero. -/
def whole? (text : List Char) : Option (Nat × List Char) :=
  match digits? text with
  | none => none
  | some (digits, rest) =>
    if digits.head? = some '0' && digits.length ≠ 1 then none
    else some (Nat.ofDigitChars 10 digits 0, rest)

/-- Skip a fraction; the answer says whether there was one. -/
def fraction? : List Char → Option (Bool × List Char)
  | '.' :: rest => (digits? rest).map fun (_, rest) => (true, rest)
  | rest => some (false, rest)

def skipSign : List Char → List Char
  | '+' :: rest => rest
  | '-' :: rest => rest
  | rest => rest

/-- Skip an exponent; the answer says whether there was one. -/
def exponent? : List Char → Option (Bool × List Char)
  | 'e' :: rest => (digits? (skipSign rest)).map fun (_, rest) => (true, rest)
  | 'E' :: rest => (digits? (skipSign rest)).map fun (_, rest) => (true, rest)
  | rest => some (false, rest)

def magnitude? (negative : Bool) (text : List Char) : Option (Number × List Char) := do
  let (whole, rest) ← whole? text
  let (hasFraction, rest) ← fraction? rest
  let (hasExponent, rest) ← exponent? rest
  if hasFraction || hasExponent || (negative && whole = 0) then some (.other, rest)
  else some (.integer (if negative then -whole else whole), rest)

def number? : List Char → Option (Number × List Char)
  | '-' :: rest => magnitude? true rest
  | text => magnitude? false text

mutual

/-- A value after any blanks. Every call uses up one unit of `fuel`. -/
def value? : Nat → List Char → Option (Value × List Char)
  | 0, _ => none
  | fuel + 1, text =>
    match skipBlanks text with
    | 'n' :: 'u' :: 'l' :: 'l' :: rest => some (.null, rest)
    | 't' :: 'r' :: 'u' :: 'e' :: rest => some (.bool true, rest)
    | 'f' :: 'a' :: 'l' :: 's' :: 'e' :: rest => some (.bool false, rest)
    | '"' :: rest => (string? rest).map fun (symbols, rest) => (.string symbols, rest)
    | '[' :: rest =>
      match skipBlanks rest with
      | ']' :: rest => some (.array [], rest)
      | rest => (items? fuel rest).map fun (items, rest) => (.array items, rest)
    | '{' :: rest =>
      match skipBlanks rest with
      | '}' :: rest => some (.object [], rest)
      | rest => (members? fuel rest).map fun (members, rest) => (.object members, rest)
    | text => (number? text).map fun (number, rest) => (.number number, rest)

/-- The values of an array up to its closing bracket; there is at least one. -/
def items? : Nat → List Char → Option (List Value × List Char)
  | 0, _ => none
  | fuel + 1, text =>
    match value? fuel text with
    | none => none
    | some (item, rest) =>
      match skipBlanks rest with
      | ',' :: rest => (items? fuel rest).map fun (items, rest) => (item :: items, rest)
      | ']' :: rest => some ([item], rest)
      | _ => none

/-- The members of an object up to its closing brace; there is at least one. -/
def members? : Nat → List Char → Option (List (List Symbol × Value) × List Char)
  | 0, _ => none
  | fuel + 1, text =>
    match skipBlanks text with
    | '"' :: rest =>
      match string? rest with
      | none => none
      | some (key, rest) =>
        match skipBlanks rest with
        | ':' :: rest =>
          match value? fuel rest with
          | none => none
          | some (value, rest) =>
            match skipBlanks rest with
            | ',' :: rest =>
              (members? fuel rest).map fun (members, rest) => ((key, value) :: members, rest)
            | '}' :: rest => some ([(key, value)], rest)
            | _ => none
        | _ => none
    | _ => none

end

/-- The value that a text spells. A call that opens a bracket leads to at most two more before the
next character, so twice the length of the text is fuel enough. -/
def parse? (text : String) : Option Value :=
  match value? (2 * text.toList.length + 2) text.toList with
  | some (value, rest) => if (skipBlanks rest).isEmpty then some value else none
  | none => none

end CoinLedger.Json

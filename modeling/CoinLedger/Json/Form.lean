import CoinLedger.Json.Reader
import CoinLedger.Json.Writer

/-! Types with a JSON form, and how records and alternatives are laid out. A record is an object
with named fields, or an array of the fields in their order. An alternative is its name alone, or
an object whose only key is the name. -/
namespace CoinLedger

class JsonForm (α : Type) where
  write : α → Json.Value
  read? : Json.Value → Option α

namespace Json
open JsonForm

def integer? : Value → Option Int
  | .number (.integer value) => some value
  | _ => none

/-- The integer that the value is, if it is from `low` to `high`. -/
def integerIn? (low high : Int) (value : Value) : Option Int :=
  (integer? value).filter fun n => low ≤ n && n ≤ high

def writeInteger (value : Int) : Value :=
  .number (.integer value)

instance : JsonForm UInt8 where
  write n := writeInteger n.toNat
  read? value := (integerIn? 0 255 value).map fun n => UInt8.ofNat n.toNat

instance : JsonForm UInt32 where
  write n := writeInteger n.toNat
  read? value := (integerIn? 0 4294967295 value).map fun n => UInt32.ofNat n.toNat

instance : JsonForm UInt64 where
  write n := writeInteger n.toNat
  read? value := (integerIn? 0 18446744073709551615 value).map fun n => UInt64.ofNat n.toNat

instance : JsonForm Int64 where
  write n := writeInteger n.toInt
  read? value := (integerIn? Int64.minValue.toInt Int64.maxValue.toInt value).map Int64.ofInt

instance : JsonForm Bool where
  write := .bool
  read?
    | .bool value => some value
    | _ => none

instance [JsonForm α] : JsonForm (List α) where
  write items := .array (items.map write)
  read?
    | .array items => items.mapM read?
    | _ => none

def record (fields : List (String × Value)) : Value :=
  .object (fields.map fun (name, value) => (symbols name, value))

/-- The only value given to a name; `none` inside if there is none, and no answer if there are
several. -/
def single? (name : String) (members : List (String × Value)) : Option (Option Value) :=
  match members.filter (·.1 = name) with
  | [] => some none
  | [(_, value)] => some (some value)
  | _ => none

/-- The named fields of a record, in the order of the names; a field may be missing. Other keys of
an object are passed over, but every key has to be a text. -/
def fields? (names : List String) : Value → Option (List (Option Value))
  | .object members => do
    let members ← members.mapM fun (key, value) => (text? key).map fun key => (key, value)
    names.mapM (single? · members)
  | .array items =>
    if items.length ≤ names.length then
      some (items.map some ++ List.replicate (names.length - items.length) none)
    else none
  | _ => none

/-- The named fields of a record, of which none may be missing. -/
def allFields? (names : List String) (value : Value) : Option (List Value) := do
  (← fields? names value).mapM id

def variant (name : String) (value : Value) : Value :=
  record [(name, value)]

/-- The name of an alternative and its value, if it has one. -/
def variant? : Value → Option (String × Option Value)
  | .string name => (text? name).map fun name => (name, none)
  | .object [(key, value)] => (text? key).map fun name => (name, some value)
  | _ => none

def encode [JsonForm α] (a : α) : String :=
  (write a).compact

def decode? [JsonForm α] (text : String) : Option α := do
  read? (← parse? text)

end Json
end CoinLedger

import CoinLedger.Json.Form
import CoinLedger.Proofs.Json.Grammar

/-! What is written spells what it was written for: numbers and texts, then arrays and records of
what is legible itself, compactly and with one field on each line. -/
namespace CoinLedger.Json

/-- The compact text of the value spells it. -/
def Value.Legible (value : Value) : Prop := Spells value.write value

theorem hexValue?_digitChar : ∀ n < 16, hexValue? (Nat.digitChar n) = some n := by decide

theorem unit?_fourDigits (n : Nat) (h : n < 65536) :
    unit? (Nat.digitChar (n / 4096 % 16)) (Nat.digitChar (n / 256 % 16))
      (Nat.digitChar (n / 16 % 16)) (Nat.digitChar (n % 16)) = some n := by
  have hx (m : Nat) := hexValue?_digitChar (m % 16) (Nat.mod_lt m (by decide))
  simp only [unit?, hx, Option.bind_eq_bind, Option.bind_some, Option.some.injEq]
  omega

theorem spellsString_write (char : Char) {text : List Char} {symbols : List Symbol}
    (h : SpellsString text symbols) :
    SpellsString ((Symbol.scalar char).write ++ text) (.scalar char :: symbols) := by
  unfold Symbol.write
  split
  case h_8 other hq hb _ _ _ _ _ he =>
    cases he
    split
    · rename_i hc
      have hn : char.toNat < 32 := Char.lt_def.mp hc
      have hu := SpellsString.unit (unit?_fourDigits char.toNat (by omega)) h
      have hs : Symbol.ofUnit char.toNat = .scalar char := by
        rw [Symbol.ofUnit, if_neg, Char.ofNat_toNat]
        simp only [Bool.and_eq_true, decide_eq_true_eq]
        omega
      rw [hs] at hu
      exact hu
    · rename_i hc
      exact .plain hq hb hc h
  case h_9 he => cases he
  all_goals
    rename_i he
    cases he
    exact .escaped rfl h

theorem spellsString_symbols (text : String) :
    SpellsString ((symbols text).flatMap Symbol.write) (symbols text) := by
  have hall (chars : List Char) :
      SpellsString ((chars.map Symbol.scalar).flatMap Symbol.write) (chars.map .scalar) := by
    induction chars with
    | nil => exact .nil
    | cons char rest ih => exact spellsString_write char ih
  exact hall text.toList

theorem eq_zero_of_head?_toDigits {n : Nat} (h : (Nat.toDigits 10 n).head? = some '0') :
    n = 0 := by
  induction n using Nat.strongRecOn with
  | ind n ih =>
    rw [Nat.toDigits_eq_if (by decide)] at h
    split at h
    · rename_i hl
      have hd : ∀ m < 10, Nat.digitChar m = '0' → m = 0 := by decide
      exact hd n hl (by simpa using h)
    · rename_i hl
      have hh : (Nat.toDigits 10 (n / 10)).head? = some '0' := by
        cases hc : Nat.toDigits 10 (n / 10) with
        | nil => exact absurd hc Nat.toDigits_ne_nil
        | cons char rest => simpa [hc] using h
      have hz := ih (n / 10) (by omega) hh
      omega

theorem whole_toDigits (n : Nat) : Whole (Nat.toDigits 10 n) where
  ne_nil := Nat.toDigits_ne_nil
  isDigit _ hm := Nat.isDigit_of_mem_toDigits (by decide) (by decide) hm
  zero_alone hh := by
    rw [eq_zero_of_head?_toDigits hh]
    rfl

theorem spellsNumber_decimal (n : Int) : SpellsNumber (decimal n) (.integer n) := by
  cases n with
  | ofNat n =>
    have h := SpellsNumber.natural (whole_toDigits n)
    rw [Nat.ofDigitChars_ten_toDigits] at h
    rw [decimal, decimalDigits_eq_toDigits]
    exact h
  | negSucc n =>
    have hv : Nat.ofDigitChars 10 (Nat.toDigits 10 (n + 1)) 0 = n + 1 :=
      Nat.ofDigitChars_ten_toDigits
    have h := SpellsNumber.negative (whole_toDigits (n + 1)) (by rw [hv]; exact Nat.succ_ne_zero n)
    rw [hv] at h
    rw [decimal, decimalDigits_eq_toDigits]
    exact h

theorem blank_nil : Blank [] := by
  intro char h
  cases h

theorem Spells.padded {text : List Char} {value : Value} (h : Spells text value) :
    SpellsPadded text value := by
  simpa using SpellsPadded.mk blank_nil h blank_nil

/-- A field as a member of an object. -/
def named (field : String × Value) : List Symbol × Value := (symbols field.1, field.2)

theorem record_eq (fields : List (String × Value)) : record fields = .object (fields.map named) :=
  rfl

theorem spellsMember_named {before text : List Char} (hb : Blank before) (field : String × Value)
    (h : SpellsPadded text field.2) :
    SpellsMember (before ++ (quoted (symbols field.1) ++ ':' :: text)) (named field) := by
  simpa [quoted, named] using SpellsMember.mk hb (spellsString_symbols field.1) blank_nil h

namespace Value.Legible

theorem integer (n : Int) : (writeInteger n).Legible := .number (spellsNumber_decimal n)

theorem bool (b : Bool) : (Value.bool b).Legible := by
  cases b with
  | true => exact .yes
  | false => exact .no

theorem text (text : String) : (Value.string (symbols text)).Legible :=
  .string (spellsString_symbols text)

theorem array {items : List Value} (h : ∀ item ∈ items, item.Legible) :
    (Value.array items).Legible := by
  have hall {item : Value} {items : List Value} (h : ∀ other ∈ item :: items, other.Legible) :
      SpellsItems (writeItems (item :: items)) (item :: items) := by
    induction items generalizing item with
    | nil => exact .last (h item List.mem_cons_self).padded
    | cons next rest ih =>
      obtain ⟨hi, hr⟩ := List.forall_mem_cons.mp h
      exact .more (Spells.padded hi) (ih hr)
  cases items with
  | nil => exact .emptyArray blank_nil
  | cons item rest => exact Spells.array (hall h)

theorem record {fields : List (String × Value)} (h : ∀ field ∈ fields, field.2.Legible) :
    (Json.record fields).Legible := by
  have hall {field : String × Value} {fields : List (String × Value)}
      (h : ∀ other ∈ field :: fields, other.2.Legible) :
      SpellsMembers (writeMembers ((field :: fields).map named)) ((field :: fields).map named) := by
    induction fields generalizing field with
    | nil =>
      have hm := spellsMember_named blank_nil field (h field List.mem_cons_self).padded
      simpa [writeMembers, named] using SpellsMembers.last hm
    | cons next rest ih =>
      obtain ⟨hf, hr⟩ := List.forall_mem_cons.mp h
      have hm := spellsMember_named blank_nil field (Spells.padded hf)
      simpa [writeMembers, named] using SpellsMembers.more hm (ih hr)
  rw [record_eq]
  cases fields with
  | nil => exact .emptyObject blank_nil
  | cons field rest => exact .object (hall h)

end Value.Legible

/-- One line of a record, without the comma behind it. -/
def fieldLine (field : String × Value) : List Char :=
  ' ' :: ' ' :: (quoted (symbols field.1) ++ ':' :: ' ' :: field.2.write)

theorem toList_linewise (fields : List (String × Value)) :
    (linewise fields).toList
      = '{' :: '\n' :: ([',', '\n'].intercalate (fields.map fieldLine) ++ ['\n', '}']) := by
  have hl : fieldLine
      = fun field => ' ' :: ' ' :: (quoted (symbols field.1) ++ ':' :: ' ' :: field.2.write) := rfl
  simp [linewise, hl, Value.compact, String.toList_intercalate, Function.comp_def]

/-- A line as a member, with the break in front of it and what comes behind its value. -/
theorem spellsMember_line {field : String × Value} (h : field.2.Legible) {after : List Char}
    (ha : Blank after) :
    SpellsMember ('\n' :: (fieldLine field ++ after)) (named field) := by
  have hb : Blank ['\n', ' ', ' '] := by simp [Blank, isBlank]
  have hv : SpellsPadded ([' '] ++ (field.2.write ++ after)) field.2 :=
    .mk (by simp [Blank, isBlank]) h ha
  simpa [fieldLine] using spellsMember_named hb field hv

/-- A record with one field on each line spells the same as without the blanks. -/
theorem spells_linewise {fields : List (String × Value)} (h : ∀ field ∈ fields, field.2.Legible) :
    SpellsPadded (linewise fields).toList (record fields) := by
  have hbreak : Blank ['\n'] := by simp [Blank, isBlank]
  have hall {field : String × Value} {fields : List (String × Value)}
      (h : ∀ other ∈ field :: fields, other.2.Legible) :
      SpellsMembers
        ('\n' :: ([',', '\n'].intercalate ((field :: fields).map fieldLine) ++ ['\n', '}']))
        ((field :: fields).map named) := by
    induction fields generalizing field with
    | nil =>
      have hm := spellsMember_line (h field List.mem_cons_self) hbreak
      simpa using SpellsMembers.last hm
    | cons next rest ih =>
      obtain ⟨hf, hr⟩ := List.forall_mem_cons.mp h
      have hm := spellsMember_line hf blank_nil
      simpa using SpellsMembers.more hm (ih hr)
  rw [toList_linewise, record_eq]
  apply Spells.padded
  cases fields with
  | nil =>
    have hb : Blank ['\n', '\n'] := by simp [Blank, isBlank]
    exact .emptyObject hb
  | cons field rest => exact .object (hall h)

end CoinLedger.Json

import CoinLedger.Proofs.Json.Grammar

/-! Whatever the grammar spells is read, and as the value that it spells. -/
namespace CoinLedger.Json

/-- What comes next does not go on a number. -/
def Ends (rest : List Char) : Prop :=
  ∀ char ∈ rest.head?, char.isDigit = false ∧ char ≠ '.' ∧ char ≠ 'e' ∧ char ≠ 'E'

theorem ends_nil : Ends [] := by
  intro char h
  cases h

theorem ends_cons {char : Char} (rest : List Char)
    (h : char.isDigit = false ∧ char ≠ '.' ∧ char ≠ 'e' ∧ char ≠ 'E') : Ends (char :: rest) := by
  intro other ho
  cases ho
  exact h

theorem skipBlanks_append {before : List Char} (h : Blank before) (text : List Char) :
    skipBlanks (before ++ text) = skipBlanks text :=
  List.dropWhile_append_of_pos h

theorem skipBlanks_cons {char : Char} (h : isBlank char = false) (text : List Char) :
    skipBlanks (char :: text) = char :: text := by
  simp [skipBlanks, h]

/-- A blank ends a number, and so does whatever comes behind blanks. -/
theorem Blank.ends {blanks rest : List Char} (h : Blank blanks) (hr : Ends rest) :
    Ends (blanks ++ rest) := by
  cases blanks with
  | nil => exact hr
  | cons char more =>
    have hb := h char List.mem_cons_self
    simp only [isBlank, Bool.or_eq_true, decide_eq_true_eq] at hb
    obtain ((rfl | rfl) | rfl) | rfl := hb
    all_goals exact ends_cons more (by decide)

section Number

theorem digits?_append {digits rest : List Char} (h : Digits digits)
    (hr : ∀ char ∈ rest.head?, char.isDigit = false) :
    digits? (digits ++ rest) = some (digits, rest) := by
  have ht : rest.takeWhile Char.isDigit = [] := by
    cases rest with
    | nil => rfl
    | cons char more => simp [hr char rfl]
  have hd : rest.dropWhile Char.isDigit = rest := by
    cases rest with
    | nil => rfl
    | cons char more => simp [hr char rfl]
  rw [digits?, List.takeWhile_append_of_pos h.isDigit, List.dropWhile_append_of_pos h.isDigit, ht,
    hd, List.append_nil]
  cases digits with
  | nil => exact absurd rfl h.ne_nil
  | cons char more => rfl

theorem whole?_append {digits rest : List Char} (h : Whole digits)
    (hr : ∀ char ∈ rest.head?, char.isDigit = false) :
    whole? (digits ++ rest) = some (Nat.ofDigitChars 10 digits 0, rest) := by
  have hz : (decide (digits.head? = some '0') && decide (digits.length ≠ 1)) = false := by
    simpa using h.zero_alone
  simp only [whole?, digits?_append h.toDigits hr, hz, Bool.false_eq_true, if_false]

theorem skipSign_append {sign digits : List Char} (hs : sign = [] ∨ sign = ['+'] ∨ sign = ['-'])
    (h : Digits digits) (rest : List Char) :
    skipSign (sign ++ (digits ++ rest)) = digits ++ rest := by
  obtain rfl | rfl | rfl := hs
  · cases digits with
    | nil => exact absurd rfl h.ne_nil
    | cons char more =>
      have hd := h.isDigit char List.mem_cons_self
      rw [List.nil_append, List.cons_append, skipSign]
      · intro _ he
        cases he
        cases hd
      · intro _ he
        cases he
        cases hd
  · rfl
  · rfl

/-- The digits end where a fraction or an exponent begins. -/
theorem Exponent.head_not_digit {exponent rest : List Char} (h : Exponent exponent)
    (hr : Ends rest) {char : Char} (hc : char ∈ (exponent ++ rest).head?) :
    char.isDigit = false ∧ char ≠ '.' := by
  cases h with
  | absent =>
    obtain ⟨hd, hp, _⟩ := hr char hc
    exact ⟨hd, hp⟩
  | power hm hs h =>
    cases hc
    obtain rfl | rfl := hm
    all_goals decide

theorem Fraction.head_not_digit {fraction rest : List Char} (h : Fraction fraction)
    (hr : ∀ char ∈ rest.head?, char.isDigit = false) {char : Char}
    (hc : char ∈ (fraction ++ rest).head?) : char.isDigit = false := by
  cases h with
  | absent => exact hr char hc
  | point h =>
    cases hc
    decide

theorem fraction?_append {fraction rest : List Char} (h : Fraction fraction)
    (hr : ∀ char ∈ rest.head?, char.isDigit = false ∧ char ≠ '.') :
    fraction? (fraction ++ rest) = some (decide (fraction ≠ []), rest) := by
  cases h with
  | absent =>
    cases rest with
    | nil => rfl
    | cons char more =>
      rw [List.nil_append, fraction?]
      · rfl
      · intro _ he
        cases he
        exact (hr '.' rfl).2 rfl
  | point h =>
    have hd := digits?_append h fun char hc => (hr char hc).1
    simp [fraction?, hd]

theorem exponent?_append {exponent rest : List Char} (h : Exponent exponent) (hr : Ends rest) :
    exponent? (exponent ++ rest) = some (decide (exponent ≠ []), rest) := by
  cases h with
  | absent =>
    cases rest with
    | nil => rfl
    | cons char more =>
      obtain ⟨_, _, hl, hu⟩ := hr char rfl
      rw [List.nil_append, exponent?]
      · rfl
      · intro _ he
        cases he
        exact hl rfl
      · intro _ he
        cases he
        exact hu rfl
  | power hm hs h =>
    have hd := digits?_append h fun char hc => (hr char hc).1
    obtain rfl | rfl := hm
    all_goals simp [exponent?, skipSign_append hs h, hd]

/-- What is read of a number behind its sign. -/
theorem magnitude?_append (negative : Bool) {digits fraction exponent rest : List Char}
    (h : Whole digits) (hf : Fraction fraction) (he : Exponent exponent) (hr : Ends rest) :
    magnitude? negative (digits ++ (fraction ++ (exponent ++ rest)))
      = some (if fraction ≠ [] ∨ exponent ≠ [] ∨ negative ∧ Nat.ofDigitChars 10 digits 0 = 0
          then .other
          else .integer (if negative then -(Nat.ofDigitChars 10 digits 0 : Int)
            else Nat.ofDigitChars 10 digits 0), rest) := by
  have hx : ∀ char ∈ (exponent ++ rest).head?, char.isDigit = false ∧ char ≠ '.' :=
    fun _ hc => he.head_not_digit hr hc
  have hw := whole?_append h fun _ hc => hf.head_not_digit (fun other ho => (hx other ho).1) hc
  simp only [magnitude?, hw, fraction?_append hf hx, exponent?_append he hr, Option.bind_eq_bind,
    Option.bind_some]
  by_cases hn : fraction ≠ [] ∨ exponent ≠ [] ∨ negative ∧ Nat.ofDigitChars 10 digits 0 = 0
  · rw [if_pos hn, if_pos]
    simpa [or_assoc] using hn
  · rw [if_neg hn, if_neg]
    simpa [or_assoc] using hn

theorem number?_minus (text : List Char) : number? ('-' :: text) = magnitude? true text := rfl

theorem number?_natural {digits rest : List Char} (h : Digits digits) :
    number? (digits ++ rest) = magnitude? false (digits ++ rest) := by
  cases digits with
  | nil => exact absurd rfl h.ne_nil
  | cons char more =>
    have hd := h.isDigit char List.mem_cons_self
    rw [List.cons_append, number?]
    intro _ he
    cases he
    cases hd

theorem number?_of_spells {text rest : List Char} {number : Number} (h : SpellsNumber text number)
    (hr : Ends rest) : number? (text ++ rest) = some (number, rest) := by
  cases h with
  | natural h =>
    rw [number?_natural h.toDigits]
    simpa using magnitude?_append false h .absent .absent hr
  | negative h hz =>
    rw [List.cons_append, number?_minus]
    simpa [hz] using magnitude?_append true h .absent .absent hr
  | minusZero =>
    have hw : Whole ['0'] := ⟨⟨by simp, by simp⟩, by simp⟩
    have hz : Nat.ofDigitChars 10 ['0'] 0 = 0 := rfl
    have hm := magnitude?_append true hw .absent .absent hr
    rw [if_pos (Or.inr (Or.inr ⟨rfl, hz⟩))] at hm
    exact hm
  | other hs h hf he hn =>
    have hm (negative : Bool) := magnitude?_append negative h hf he hr
    simp only [if_pos (hn.imp_right Or.inl)] at hm
    simp only [List.append_assoc]
    obtain rfl | rfl := hs
    · rw [List.nil_append, number?_natural h.toDigits, hm]
    · rw [List.singleton_append, number?_minus, hm]

end Number

theorem string?_of_spells {text : List Char} {symbols : List Symbol}
    (h : SpellsString text symbols) (rest : List Char) :
    string? (text ++ '"' :: rest) = some (symbols, rest) := by
  induction h with
  | nil => rfl
  | plain hq hb hc h ih =>
    rw [List.cons_append, string?, ih]
    · simp [hb, hc]
    · exact hq
    · intro _ _ _ _ _ he
      exact absurd he hb
    · intro _ _ he
      exact absurd he hb
  | escaped hm h ih =>
    rw [List.cons_append, List.cons_append, string?, ih, hm]
    · rfl
    · rintro _ _ _ _ _ rfl
      cases hm
  | unit hu h ih =>
    simp only [List.cons_append, string?, ih, hu]
    rfl

/-- A number begins with its sign or a digit. -/
theorem SpellsNumber.head {text : List Char} {number : Number} (h : SpellsNumber text number) :
    ∃ char more, text = char :: more ∧ (char = '-' ∨ char.isDigit = true) := by
  have hd {digits : List Char} (h : Digits digits) (more : List Char) :
      ∃ char rest, digits ++ more = char :: rest ∧ (char = '-' ∨ char.isDigit = true) := by
    cases digits with
    | nil => exact absurd rfl h.ne_nil
    | cons char rest => exact ⟨char, rest ++ more, rfl, Or.inr (h.isDigit char List.mem_cons_self)⟩
  cases h with
  | natural h => simpa using hd h.toDigits []
  | negative h hz => exact ⟨'-', _, rfl, Or.inl rfl⟩
  | minusZero => exact ⟨'-', _, rfl, Or.inl rfl⟩
  | other hs h hf he hn =>
    obtain rfl | rfl := hs
    · exact hd h.toDigits _
    · exact ⟨'-', _, rfl, Or.inl rfl⟩

theorem isBlank_eq_false {char : Char} (h : char = '-' ∨ char.isDigit = true) :
    isBlank char = false := by
  rw [Bool.eq_false_iff]
  intro hb
  simp only [isBlank, Bool.or_eq_true, decide_eq_true_eq] at hb
  obtain ((rfl | rfl) | rfl) | rfl := hb
  all_goals exact absurd h (by decide)

/-- A value begins with a character that is neither a blank nor a closing bracket. -/
theorem Spells.head {text : List Char} {value : Value} (h : Spells text value) :
    ∃ char more, text = char :: more ∧ isBlank char = false ∧ char ≠ ']' := by
  cases h with
  | number h =>
    obtain ⟨char, more, he, hc⟩ := h.head
    refine ⟨char, more, he, isBlank_eq_false hc, ?_⟩
    rintro rfl
    exact absurd hc (by decide)
  | _ => exact ⟨_, _, rfl, by decide, by decide⟩

theorem skipBlanks_skipBlanks (text : List Char) :
    skipBlanks (skipBlanks text) = skipBlanks text := by
  induction text with
  | nil => rfl
  | cons char rest ih =>
    cases hb : isBlank char with
    | true => simpa [skipBlanks, hb] using ih
    | false => rw [skipBlanks_cons hb, skipBlanks_cons hb]

theorem value?_skipBlanks (fuel : Nat) (text : List Char) :
    value? fuel (skipBlanks text) = value? fuel text := by
  cases fuel with
  | zero => rfl
  | succ fuel => rw [value?, value?, skipBlanks_skipBlanks]

theorem items?_skipBlanks (fuel : Nat) (text : List Char) :
    items? fuel (skipBlanks text) = items? fuel text := by
  cases fuel with
  | zero => rfl
  | succ fuel => rw [items?, items?, value?_skipBlanks]

theorem members?_skipBlanks (fuel : Nat) (text : List Char) :
    members? fuel (skipBlanks text) = members? fuel text := by
  cases fuel with
  | zero => rfl
  | succ fuel => rw [members?, members?, skipBlanks_skipBlanks]

/-- Behind the blanks in front of the first value of an array there is no closing bracket. -/
theorem SpellsItems.head {text : List Char} {items : List Value} (h : SpellsItems text items)
    (rest : List Char) : ∃ char more, skipBlanks (text ++ rest) = char :: more ∧ char ≠ ']' := by
  have hp {text : List Char} {item : Value} (h : SpellsPadded text item) (rest : List Char) :
      ∃ char more, skipBlanks (text ++ rest) = char :: more ∧ char ≠ ']' := by
    cases h with
    | mk hb h ha =>
      obtain ⟨char, more, rfl, hc, hne⟩ := h.head
      rw [List.append_assoc, skipBlanks_append hb, List.cons_append, List.cons_append,
        skipBlanks_cons hc]
      exact ⟨char, _, rfl, hne⟩
  cases h with
  | last h =>
    rw [List.append_assoc]
    exact hp h _
  | more h hr =>
    rw [List.append_assoc]
    exact hp h _

theorem SpellsMembers.head {text : List Char} {members : List (List Symbol × Value)}
    (h : SpellsMembers text members) (rest : List Char) :
    ∃ more, skipBlanks (text ++ rest) = '"' :: more := by
  have hp {text : List Char} {member : List Symbol × Value} (h : SpellsMember text member)
      (rest : List Char) : ∃ more, skipBlanks (text ++ rest) = '"' :: more := by
    cases h with
    | mk hb hk hc h =>
      rw [List.append_assoc, skipBlanks_append hb, List.cons_append, skipBlanks_cons (by decide)]
      exact ⟨_, rfl⟩
  cases h with
  | last h =>
    rw [List.append_assoc]
    exact hp h _
  | more h hr =>
    rw [List.append_assoc]
    exact hp h _

/-- What a given fuel is enough for: twice the length of the text that is still to be read. -/
structure ReadsWithin (fuel : Nat) : Prop where
  value {before text rest : List Char} {value : Value} : Blank before → Spells text value →
    Ends rest → 2 * text.length ≤ fuel →
    value? fuel (before ++ (text ++ rest)) = some (value, rest)
  items {text rest : List Char} {items : List Value} : SpellsItems text items →
    2 * text.length ≤ fuel → items? fuel (text ++ rest) = some (items, rest)
  members {text rest : List Char} {members : List (List Symbol × Value)} :
    SpellsMembers text members → 2 * text.length ≤ fuel →
    members? fuel (text ++ rest) = some (members, rest)

namespace ReadsWithin
variable {fuel : Nat} (ih : ReadsWithin fuel)
include ih

/-- The blanks behind a value are left to whoever asked for it. -/
theorem padded {text rest : List Char} {value : Value} (h : SpellsPadded text value)
    (hr : Ends rest) (hf : 2 * text.length ≤ fuel) :
    ∃ left, value? fuel (text ++ rest) = some (value, left)
      ∧ skipBlanks left = skipBlanks rest := by
  cases h with
  | @mk _ _ after _ hb h ha =>
    simp only [List.length_append] at hf
    refine ⟨after ++ rest, ?_, skipBlanks_append ha rest⟩
    simp only [List.append_assoc]
    exact ih.value hb h (ha.ends hr) (by omega)

theorem value_succ {before text rest : List Char} {value : Value} (hb : Blank before)
    (h : Spells text value) (hr : Ends rest) (hf : 2 * text.length ≤ fuel + 1) :
    value? (fuel + 1) (before ++ (text ++ rest)) = some (value, rest) := by
  rw [value?, skipBlanks_append hb]
  cases h with
  | null => rfl
  | yes => rfl
  | no => rfl
  | number h =>
    obtain ⟨char, more, rfl, hc⟩ := h.head
    rw [List.cons_append, skipBlanks_cons (isBlank_eq_false hc)]
    split
    case h_7 =>
      rw [← List.cons_append, number?_of_spells h hr]
      rfl
    -- No other kind of value begins like a number.
    all_goals
      rename_i he
      rw [(List.cons.inj he).1] at hc
      exact absurd hc (by decide)
  | string h =>
    rw [List.cons_append, skipBlanks_cons (by decide)]
    simp [string?_of_spells h]
  | emptyArray h =>
    rw [List.cons_append, skipBlanks_cons (by decide)]
    simp only [List.append_assoc, skipBlanks_append h]
    rfl
  | @array text items h =>
    rw [List.length_cons] at hf
    obtain ⟨char, more, hs, hc⟩ := h.head rest
    have hi : items? fuel (text ++ rest) = some (items, rest) := ih.items h (by omega)
    rw [← items?_skipBlanks, hs] at hi
    rw [List.cons_append, skipBlanks_cons (by decide)]
    simp only [hs]
    split
    · rename_i he
      cases he
      exact absurd rfl hc
    · rw [hi]
      rfl
  | emptyObject h =>
    rw [List.cons_append, skipBlanks_cons (by decide)]
    simp only [List.append_assoc, skipBlanks_append h]
    rfl
  | @object text members h =>
    rw [List.length_cons] at hf
    obtain ⟨more, hs⟩ := h.head rest
    have hm : members? fuel (text ++ rest) = some (members, rest) := ih.members h (by omega)
    rw [← members?_skipBlanks, hs] at hm
    rw [List.cons_append, skipBlanks_cons (by decide)]
    simp only [hs]
    split
    · rename_i he
      cases he
    · rw [hm]
      rfl

theorem items_succ {text rest : List Char} {items : List Value} (h : SpellsItems text items)
    (hf : 2 * text.length ≤ fuel + 1) :
    items? (fuel + 1) (text ++ rest) = some (items, rest) := by
  cases h with
  | last h =>
    simp only [List.length_append, List.length_singleton] at hf
    have hr : Ends (']' :: rest) := ends_cons rest (by decide)
    obtain ⟨left, hv, hs⟩ := ih.padded h hr (by omega)
    rw [skipBlanks_cons (by decide)] at hs
    simp [items?, hv, hs]
  | @more text next item items h hn =>
    simp only [List.length_append, List.length_cons] at hf
    have hr : Ends (',' :: (next ++ rest)) := ends_cons _ (by decide)
    obtain ⟨left, hv, hs⟩ := ih.padded h hr (by omega)
    rw [skipBlanks_cons (by decide)] at hs
    simp [items?, hv, hs, ih.items hn (by omega)]

/-- A member is read as one, and what comes behind it decides how it goes on. -/
theorem member {text rest : List Char} {key : List Symbol} {value : Value}
    (h : SpellsMember text (key, value)) (hr : Ends rest) (hf : 2 * text.length ≤ fuel + 1) :
    ∃ front left middle last, skipBlanks (text ++ rest) = '"' :: front
      ∧ string? front = some (key, left) ∧ skipBlanks left = ':' :: middle
      ∧ value? fuel middle = some (value, last) ∧ skipBlanks last = skipBlanks rest := by
  cases h with
  | @mk before name between body _ _ hb hk hc h =>
    simp only [List.length_append, List.length_cons] at hf
    obtain ⟨last, hv, hs⟩ := ih.padded h hr (by omega)
    have hk := string?_of_spells hk (between ++ ':' :: (body ++ rest))
    refine ⟨_, _, body ++ rest, last, ?_, hk, ?_, hv, hs⟩
    · simp only [List.append_assoc, List.cons_append]
      rw [skipBlanks_append hb, skipBlanks_cons (by decide)]
    · rw [skipBlanks_append hc, skipBlanks_cons (by decide)]

theorem members_succ {text rest : List Char} {members : List (List Symbol × Value)}
    (h : SpellsMembers text members) (hf : 2 * text.length ≤ fuel + 1) :
    members? (fuel + 1) (text ++ rest) = some (members, rest) := by
  cases h with
  | last h =>
    simp only [List.length_append, List.length_singleton] at hf
    have hr : Ends ('}' :: rest) := ends_cons rest (by decide)
    obtain ⟨front, left, middle, last, hq, hk, hm, hv, hs⟩ := ih.member h hr (by omega)
    rw [skipBlanks_cons (by decide)] at hs
    simp [members?, hq, hk, hm, hv, hs]
  | @more text next member members h hn =>
    simp only [List.length_append, List.length_cons] at hf
    have hr : Ends (',' :: (next ++ rest)) := ends_cons _ (by decide)
    obtain ⟨front, left, middle, last, hq, hk, hm, hv, hs⟩ := ih.member h hr (by omega)
    rw [skipBlanks_cons (by decide)] at hs
    simp [members?, hq, hk, hm, hv, hs, ih.members hn (by omega)]

end ReadsWithin

theorem Spells.length_pos {text : List Char} {value : Value} (h : Spells text value) :
    0 < text.length := by
  obtain ⟨char, more, rfl, _⟩ := h.head
  exact Nat.succ_pos _

theorem SpellsItems.length_pos {text : List Char} {items : List Value}
    (h : SpellsItems text items) : 0 < text.length := by
  cases h with
  | last | more => simp only [List.length_append, List.length_cons]; omega

theorem SpellsMembers.length_pos {text : List Char} {members : List (List Symbol × Value)}
    (h : SpellsMembers text members) : 0 < text.length := by
  cases h with
  | last | more => simp only [List.length_append, List.length_cons]; omega

theorem readsWithin (fuel : Nat) : ReadsWithin fuel := by
  induction fuel with
  | zero =>
    refine ⟨?_, ?_, ?_⟩
    · intro _ _ _ _ _ h _ hf
      have hp := h.length_pos
      omega
    · intro _ _ _ h hf
      have hp := h.length_pos
      omega
    · intro _ _ _ h hf
      have hp := h.length_pos
      omega
  | succ fuel ih =>
    exact ⟨fun hb h hr hf => ih.value_succ hb h hr hf, fun h hf => ih.items_succ h hf,
      fun h hf => ih.members_succ h hf⟩

/-- Every text that the grammar gives a value is read as this value. -/
theorem parse?_of_spells {text : String} {value : Value} (h : SpellsPadded text.toList value) :
    parse? text = some value := by
  have hf : 2 * text.toList.length ≤ 2 * text.toList.length + 2 := by omega
  obtain ⟨left, hv, hs⟩ := (readsWithin _).padded h ends_nil hf
  rw [List.append_nil] at hv
  simp only [parse?, hv, hs]
  rfl

end CoinLedger.Json

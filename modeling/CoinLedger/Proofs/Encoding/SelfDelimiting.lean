import CoinLedger.Block.Basic
import CoinLedger.Proofs.Encoding.Leading

/-! The byte forms say where they end. Of all values whose lengths can be counted, one at most has a
form that a given byte string starts with; this is kept by counts, by forms set one after another
and by counted lists, and so it climbs from single bytes up to transactions. -/
namespace CoinLedger

/-- A list whose length the widest count can hold. -/
def Short (items : List α) : Prop := items.length < UInt64.size

/-- A short list of items that fit. -/
def ShortOf (fits : α → Prop) (items : List α) : Prop :=
  Short items ∧ ∀ item ∈ items, fits item

def Opcode.Fits : Opcode → Prop
  | push literal => Short literal
  | _ => True

def Script.Fits (script : Script) : Prop := ShortOf Opcode.Fits script

def Unlock.Fits (unlock : Unlock) : Prop := Short unlock.signature ∧ Short unlock.publicKey

def Input.Fits (input : Input) : Prop := input.unlock.Fits

def Output.Fits (output : Output) : Prop := Script.Fits output.lock

/-- Every length in a transaction can be counted. -/
def Transaction.Fits : Transaction → Prop
  | coinbase outputs => ShortOf Output.Fits outputs
  | spend inputs outputs => ShortOf Input.Fits inputs ∧ ShortOf Output.Fits outputs

/-- The form of a value that fits shows which value it is and where it ends. -/
def SelfDelimiting (fits : α → Prop) (form : α → Bytes) : Prop :=
  ∀ a b x y, fits a → fits b → form a ++ x = form b ++ y → a = b ∧ x = y

namespace SelfDelimiting
variable {fits : α → Prop} {form : α → Bytes}

theorem mono {others : α → Prop} (hf : SelfDelimiting fits form) (h : ∀ a, others a → fits a) :
    SelfDelimiting others form :=
  fun a b x y ha hb => hf a b x y (h a ha) (h b hb)

theorem of_length {width : Nat} (hl : ∀ a, (form a).length = width)
    (hi : ∀ a b, form a = form b → a = b) : SelfDelimiting (fun _ => True) form := by
  intro a b x y _ _ h
  have hw : (form a).length = (form b).length := by rw [hl, hl]
  obtain ⟨hf, hx⟩ := List.append_inj h hw
  exact ⟨hi a b hf, hx⟩

/-- Two forms, one behind the other. -/
theorem append {fitsFirst : β → Prop} {fitsSecond : γ → Prop} {first : β → Bytes}
    {second : γ → Bytes} (hf : SelfDelimiting fitsFirst first)
    (hs : SelfDelimiting fitsSecond second) {front : α → β} {back : α → γ}
    (he : ∀ a b, front a = front b → back a = back b → a = b) :
    SelfDelimiting (fun a => fitsFirst (front a) ∧ fitsSecond (back a))
      (fun a => first (front a) ++ second (back a)) := by
  intro a b x y ha hb h
  rw [List.append_assoc, List.append_assoc] at h
  obtain ⟨hfront, hrest⟩ := hf _ _ _ _ ha.1 hb.1 h
  obtain ⟨hback, hx⟩ := hs _ _ _ _ ha.2 hb.2 hrest
  exact ⟨he a b hfront hback, hx⟩

theorem flatMap (hf : SelfDelimiting fits form) {l m : List α} {x y : Bytes}
    (hn : l.length = m.length) (hl : ∀ item ∈ l, fits item) (hm : ∀ item ∈ m, fits item)
    (h : l.flatMap form ++ x = m.flatMap form ++ y) : l = m ∧ x = y := by
  induction l generalizing m with
  | nil =>
    have he : m = [] := List.length_eq_zero_iff.mp hn.symm
    subst he
    exact ⟨rfl, h⟩
  | cons a rest ih =>
    cases m with
    | nil => cases hn
    | cons b tail =>
      rw [List.flatMap_cons, List.flatMap_cons, List.append_assoc, List.append_assoc] at h
      obtain ⟨ha, hl⟩ := List.forall_mem_cons.mp hl
      obtain ⟨hb, hm⟩ := List.forall_mem_cons.mp hm
      obtain ⟨hab, hr⟩ := hf a b _ _ ha hb h
      obtain ⟨ht, hx⟩ := ih (Nat.succ.inj hn) hl hm hr
      exact ⟨by rw [hab, ht], hx⟩

end SelfDelimiting

/-- The number that a count spells; in a longer form the first byte only names the width. -/
def countValue : Bytes → Nat
  | [] => 0
  | [byte] => byte.toNat
  | _ :: rest => littleEndianValue rest

theorem countValue_compactSize {n : Nat} (h : n < UInt64.size) :
    countValue (compactSize n) = n := by
  rw [compactSize]
  split
  · show (UInt8.ofNat n).toNat = n
    rw [UInt8.toNat_ofNat']
    omega
  · split
    · rename_i hn
      have hw : n < Nat.pow 256 2 := Nat.lt_of_le_of_lt hn (by decide)
      exact littleEndianValue_littleEndian hw
    · split
      · rename_i hn
        have hw : n < Nat.pow 256 4 := Nat.lt_of_le_of_lt hn (by decide)
        exact littleEndianValue_littleEndian hw
      · have hw : n < Nat.pow 256 8 := h
        exact littleEndianValue_littleEndian hw

theorem compactSize_inj {m n : Nat} (hm : m < UInt64.size) (hn : n < UInt64.size)
    (h : compactSize m = compactSize n) : m = n := by
  have hv := congrArg countValue h
  rwa [countValue_compactSize hm, countValue_compactSize hn] at hv

theorem selfDelimiting_compactSize : SelfDelimiting (· < UInt64.size) compactSize := by
  intro m n x y hm hn h
  have hx : x = y := compactSize_append_cancel h
  have hc : compactSize m = compactSize n := by
    rw [hx] at h
    exact List.append_cancel_right h
  exact ⟨compactSize_inj hm hn hc, hx⟩

theorem selfDelimiting_sizedBytes : SelfDelimiting Short sizedBytes := by
  intro a b x y ha hb h
  simp only [sizedBytes, List.append_assoc] at h
  obtain ⟨hl, hr⟩ := selfDelimiting_compactSize _ _ _ _ ha hb h
  exact List.append_inj hr hl

theorem SelfDelimiting.sizedList {fits : α → Prop} {form : α → Bytes}
    (hf : SelfDelimiting fits form) : SelfDelimiting (ShortOf fits) (sizedList form) := by
  intro l m x y hl hm h
  simp only [CoinLedger.sizedList, List.append_assoc] at h
  obtain ⟨hn, hr⟩ := selfDelimiting_compactSize _ _ _ _ hl.1 hm.1 h
  exact hf.flatMap hn hl.2 hm.2 hr

theorem selfDelimiting_opcode : SelfDelimiting Opcode.Fits Opcode.encode := by
  intro a b x y ha hb h
  cases a with
  | push literal =>
    cases b with
    | push other =>
      obtain ⟨hl, hx⟩ := selfDelimiting_sizedBytes _ _ _ _ ha hb (List.cons.inj h).2
      exact ⟨by rw [hl], hx⟩
    | _ => simp [Opcode.encode, Opcode.tag] at h
  | _ => cases b <;> simp_all [Opcode.encode, Opcode.tag]

theorem selfDelimiting_script : SelfDelimiting Script.Fits Script.encode :=
  selfDelimiting_opcode.sizedList

theorem selfDelimiting_unlock : SelfDelimiting Unlock.Fits Unlock.encode := by
  apply selfDelimiting_sizedBytes.append selfDelimiting_sizedBytes
  rintro ⟨signature, publicKey⟩ ⟨_, _⟩ rfl rfl
  rfl

theorem selfDelimiting_outPoint : SelfDelimiting (fun _ => True) OutPoint.encode :=
  .of_length OutPoint.length_encode fun _ _ => OutPoint.encode_inj

theorem selfDelimiting_input : SelfDelimiting Input.Fits Input.encode := by
  have hp : SelfDelimiting (fun input : Input => True ∧ input.unlock.Fits) Input.encode := by
    apply selfDelimiting_outPoint.append selfDelimiting_unlock
    rintro ⟨prevout, unlock⟩ ⟨_, _⟩ rfl rfl
    rfl
  exact hp.mono fun _ h => ⟨trivial, h⟩

theorem selfDelimiting_amount :
    SelfDelimiting (fun _ => True) fun value : Amount => littleEndian 8 value.toUInt64.toNat := by
  have hl : ∀ value : Amount, (littleEndian 8 value.toUInt64.toNat).length = 8 := fun _ =>
    length_littleEndian 8 _
  apply SelfDelimiting.of_length hl
  intro a b h
  have hn := littleEndian_inj a.toUInt64.toNat_lt b.toUInt64.toNat_lt h
  have hu : a.toUInt64 = b.toUInt64 := UInt64.toNat_inj.mp hn
  cases a
  cases b
  exact congrArg Int64.ofUInt64 hu

theorem selfDelimiting_output : SelfDelimiting Output.Fits Output.encode := by
  have hp : SelfDelimiting (fun output : Output => True ∧ Script.Fits output.lock)
      Output.encode := by
    apply selfDelimiting_amount.append selfDelimiting_script
    rintro ⟨value, lock⟩ ⟨_, _⟩ rfl rfl
    rfl
  exact hp.mono fun _ h => ⟨trivial, h⟩

theorem selfDelimiting_transaction : SelfDelimiting Transaction.Fits Transaction.encode := by
  intro t u x y ht hu h
  cases t with
  | coinbase outputs =>
    cases u with
    | coinbase others =>
      have hr := (List.cons.inj h).2
      obtain ⟨ho, hx⟩ := selfDelimiting_output.sizedList _ _ _ _ ht hu hr
      exact ⟨by rw [ho], hx⟩
    | spend inputs others => simp [Transaction.encode] at h
  | spend inputs outputs =>
    cases u with
    | coinbase others => simp [Transaction.encode] at h
    | spend others outs =>
      simp only [Transaction.encode, List.cons_append, List.cons.injEq, List.append_assoc] at h
      have hr := h.2
      obtain ⟨hi, ho⟩ := selfDelimiting_input.sizedList _ _ _ _ ht.1 hu.1 hr
      obtain ⟨ho, hx⟩ := selfDelimiting_output.sizedList _ _ _ _ ht.2 hu.2 ho
      exact ⟨by rw [hi, ho], hx⟩

theorem Transaction.encode_inj {t u : Transaction} (ht : t.Fits) (hu : u.Fits)
    (h : t.encode = u.encode) : t = u := by
  have hnil : t.encode ++ [] = u.encode ++ [] := by rw [h]
  exact (selfDelimiting_transaction t u [] [] ht hu hnil).1

theorem Header.encode_inj {a b : Header} (h : a.encode = b.encode) : a = b := by
  have hp : a.previous.bytes.length = b.previous.bytes.length := by
    rw [a.previous.length_bytes, b.previous.length_bytes]
  have hr : a.root.bytes.length = b.root.bytes.length := by
    rw [a.root.length_bytes, b.root.length_bytes]
  have ht : (littleEndian 8 a.time.toNat).length = (littleEndian 8 b.time.toNat).length := by
    rw [length_littleEndian, length_littleEndian]
  simp only [encode, List.append_assoc] at h
  obtain ⟨hprevious, h⟩ := List.append_inj h hp
  obtain ⟨hroot, h⟩ := List.append_inj h hr
  obtain ⟨htime, hnonce⟩ := List.append_inj h ht
  have htime := littleEndian_inj a.time.toNat_lt b.time.toNat_lt htime
  have hnonce := littleEndian_inj a.nonce.toNat_lt b.nonce.toNat_lt hnonce
  cases a
  cases b
  rw [Header.mk.injEq]
  exact ⟨Digest.ext hprevious, Digest.ext hroot, UInt64.toNat_inj.mp htime,
    UInt64.toNat_inj.mp hnonce⟩

/-- Transactions and scripts whose lengths can be counted are told apart by their forms, whatever
comes behind these; headers are told apart by theirs. -/
theorem encodings_unique_and_delimited :
    (∀ t u : Transaction, t.Fits → u.Fits → ∀ x y,
        t.encode ++ x = u.encode ++ y ↔ t = u ∧ x = y)
      ∧ (∀ a b : Script, Script.Fits a → Script.Fits b → ∀ x y,
        Script.encode a ++ x = Script.encode b ++ y ↔ a = b ∧ x = y)
      ∧ ∀ a b : Header, a.encode = b.encode ↔ a = b := by
  refine ⟨?_, ?_, ?_⟩
  · intro t u ht hu x y
    constructor
    · exact selfDelimiting_transaction t u x y ht hu
    · rintro ⟨rfl, rfl⟩
      rfl
  · intro a b ha hb x y
    constructor
    · exact selfDelimiting_script a b x y ha hb
    · rintro ⟨rfl, rfl⟩
      rfl
  · intro a b
    constructor
    · exact Header.encode_inj
    · rintro rfl
      rfl

/-- A spend that makes a coin of a negative value, locked by a push of so many zeros. -/
def negativePush (count : Nat) : Transaction :=
  .spend [⟨⟨sha256 [1], 0⟩, .empty⟩] [⟨-1, [.push (List.replicate count 0)]⟩]

theorem negativePush_inj {m n : Nat} (h : negativePush m = negativePush n) : m = n := by
  simpa [negativePush] using h

/-- On both sides of the step from one byte to three. -/
theorem negativePush_encodes_apart :
    (negativePush 252).Fits ∧ (negativePush 253).Fits
      ∧ ∀ x y, (negativePush 252).encode ++ x ≠ (negativePush 253).encode ++ y := by
  have hone : 1 < UInt64.size := by decide
  have hf : ∀ count < UInt64.size, (negativePush count).Fits := by
    intro count hc
    simp [negativePush, Transaction.Fits, ShortOf, Short, Input.Fits, Unlock.Fits, Unlock.empty,
      Output.Fits, Script.Fits, Opcode.Fits, hc, hone]
  have hl : (negativePush 252).Fits := hf 252 (by decide)
  have hr : (negativePush 253).Fits := hf 253 (by decide)
  refine ⟨hl, hr, ?_⟩
  intro x y h
  have he := ((encodings_unique_and_delimited.1 _ _ hl hr x y).mp h).1
  have hn : 252 = 253 := negativePush_inj he
  omega

end CoinLedger

import CoinLedger.Json.LedgerForms
import CoinLedger.Proofs.Json.Reading
import CoinLedger.Proofs.Json.Writing

/-! Forms that can be read back. A form is lawful if what it writes is legible and is read as what
it was written for; this goes through lists, records and alternatives, and so from the integers up
to blocks. A lawful form has one text for every value, and no text for two. -/
namespace CoinLedger
open Json JsonForm

class LawfulJsonForm (α : Type) [JsonForm α] : Prop where
  read?_write (a : α) : read? (write a) = some a
  legible_write (a : α) : (write a).Legible

open LawfulJsonForm

namespace Json

theorem spells_encode {α : Type} [JsonForm α] [LawfulJsonForm α] (a : α) :
    Spells (encode a).toList (write a) := by
  rw [encode, Value.compact, String.toList_ofList]
  exact legible_write a

theorem decode?_encode {α : Type} [JsonForm α] [LawfulJsonForm α] (a : α) :
    decode? (encode a) = some a := by
  rw [decode?, parse?_of_spells (spells_encode a).padded]
  exact read?_write a

theorem integerIn?_writeInteger {low high n : Int} (hl : low ≤ n) (hh : n ≤ high) :
    integerIn? low high (writeInteger n) = some n := by
  simp [integerIn?, integer?, writeInteger, Option.filter, hl, hh]

theorem map_integerIn?_natural {α : Type} {high : Int} {n : Nat} (h : n ≤ high) (f : Nat → α) :
    (integerIn? 0 high (writeInteger n)).map (fun m => f m.toNat) = some (f n) := by
  rw [integerIn?_writeInteger (Int.natCast_nonneg n) h, Option.map_some, Int.toNat_natCast]

theorem mapM_map_eq_some {α β γ : Type} {items : List α} {f : α → β} {g : β → Option γ} {h : α → γ}
    (hg : ∀ item ∈ items, g (f item) = some (h item)) :
    (items.map f).mapM g = some (items.map h) := by
  induction items with
  | nil => rfl
  | cons item rest ih =>
    obtain ⟨hi, hr⟩ := List.forall_mem_cons.mp hg
    simp [hi, ih hr]

/-- The names of a record are read as they were written, and each field is looked for by its own. -/
theorem fields?_record (names : List String) (members : List (String × Value)) :
    fields? names (record members) = names.mapM (single? · members) := by
  rw [record_eq, fields?, mapM_map_eq_some (h := id)]
  · rw [Option.bind_eq_bind, Option.bind_some, List.map_id]
  · simp [named, text?_symbols]

theorem filter_name_of_mem {fields : List (String × Value)} (hn : (fields.map (·.1)).Nodup)
    {field : String × Value} (hm : field ∈ fields) :
    fields.filter (·.1 = field.1) = [field] := by
  induction fields with
  | nil => cases hm
  | cons first rest ih =>
    obtain ⟨hne, hr⟩ := List.nodup_cons.mp hn
    cases List.mem_cons.mp hm with
    | inl he =>
      subst he
      have hrest : rest.filter (·.1 = field.1) = [] := by
        apply List.filter_eq_nil_iff.mpr
        intro other ho he
        exact hne (List.mem_map.mpr ⟨other, ho, by simpa using he⟩)
      simp [hrest]
    | inr hm =>
      have hfirst : first.1 ≠ field.1 := fun he => hne (List.mem_map.mpr ⟨field, hm, he.symm⟩)
      rw [List.filter_cons_of_neg (by simpa using hfirst), ih hr hm]

/-- A record is read with all its fields, in the order of their names. -/
theorem allFields?_record {names : List String} {fields : List (String × Value)}
    (hf : fields.map (·.1) = names) (hn : names.Nodup) :
    allFields? names (record fields) = some (fields.map (·.2)) := by
  have hall : (fields.map (·.1)).mapM (single? · fields)
      = some (fields.map fun field => some field.2) := by
    apply mapM_map_eq_some
    intro field hm
    rw [single?, filter_name_of_mem (hf ▸ hn) hm]
  have hid : (fields.map fun field => some field.2).mapM id = some (fields.map (·.2)) :=
    mapM_map_eq_some fun _ _ => rfl
  rw [allFields?, fields?_record, ← hf, hall]
  exact hid

theorem bind_allFields?_record {α : Type} {names : List String} {fields : List (String × Value)}
    {k : List Value → Option α} (hf : fields.map (·.1) = names) (hn : names.Nodup) :
    (allFields? names (record fields)).bind k = k (fields.map (·.2)) := by
  rw [allFields?_record hf hn, Option.bind_some]

theorem variant?_variant (name : String) (value : Value) :
    variant? (variant name value) = some (name, some value) := by
  simp [variant?, variant, record, text?_symbols]

theorem Value.Legible.variant (name : String) {value : Value} (h : value.Legible) :
    (Json.variant name value).Legible :=
  .record (by simpa using h)

theorem variant?_string (name : String) :
    variant? (.string (symbols name)) = some (name, none) := by
  simp [variant?, text?_symbols]

end Json

section Basic

instance : LawfulJsonForm UInt8 where
  read?_write n := by
    have hn : (n.toNat : Int) ≤ 255 := by
      have hlt := n.toNat_lt
      omega
    have hr := map_integerIn?_natural hn UInt8.ofNat
    rwa [UInt8.ofNat_toNat] at hr
  legible_write n := .integer n.toNat

instance : LawfulJsonForm UInt32 where
  read?_write n := by
    have hn : (n.toNat : Int) ≤ 4294967295 := by
      have hlt := n.toNat_lt
      omega
    have hr := map_integerIn?_natural hn UInt32.ofNat
    rwa [UInt32.ofNat_toNat] at hr
  legible_write n := .integer n.toNat

instance : LawfulJsonForm UInt64 where
  read?_write n := by
    have hn : (n.toNat : Int) ≤ 18446744073709551615 := by
      have hlt := n.toNat_lt
      omega
    have hr := map_integerIn?_natural hn UInt64.ofNat
    rwa [UInt64.ofNat_toNat] at hr
  legible_write n := .integer n.toNat

instance : LawfulJsonForm Int64 where
  read?_write n := by
    have hr := integerIn?_writeInteger n.minValue_le_toInt n.toInt_le
    show (integerIn? _ _ (writeInteger n.toInt)).map Int64.ofInt = some n
    rw [hr, Option.map_some, Int64.ofInt_toInt]
  legible_write n := .integer n.toInt

instance : LawfulJsonForm Bool where
  read?_write _ := rfl
  legible_write := .bool

instance {α : Type} [JsonForm α] [LawfulJsonForm α] : LawfulJsonForm (List α) where
  read?_write items := by
    have hall : (items.map write).mapM read? = some (items.map id) :=
      mapM_map_eq_some fun item _ => read?_write item
    rwa [List.map_id] at hall
  legible_write items := by
    apply Value.Legible.array
    intro value hm
    obtain ⟨item, _, rfl⟩ := List.mem_map.mp hm
    exact legible_write item

instance {width : Nat} : LawfulJsonForm (Digest width) where
  read?_write digest := by
    show (read? (write digest.bytes)).bind (Digest.ofBytes? width) = some digest
    rw [read?_write, Option.bind_some, Digest.ofBytes?_bytes]
  legible_write digest := legible_write digest.bytes

end Basic

instance : LawfulJsonForm OutPoint where
  read?_write point := (bind_allFields?_record (by rfl) (by decide)).trans (by simp [read?_write])
  legible_write point := .record (by simp [legible_write])

instance : LawfulJsonForm Unlock where
  read?_write unlock :=
    (bind_allFields?_record (by rfl) (by decide)).trans (by simp [read?_write])
  legible_write unlock := .record (by simp [legible_write])

instance : LawfulJsonForm Input where
  read?_write input := (bind_allFields?_record (by rfl) (by decide)).trans (by simp [read?_write])
  legible_write input := .record (by simp [legible_write])

theorem Opcode.ofVariant?_variantName :
    ∀ opcode ∈ plain, ofVariant? opcode.variantName none = some opcode := by
  decide

instance : LawfulJsonForm Opcode where
  read?_write opcode := by
    cases opcode with
    | push literal =>
      show (variant? (variant "Push" (write literal))).bind _ = _
      rw [variant?_variant, Option.bind_some]
      simp [Opcode.ofVariant?, read?_write]
    | _ =>
      show (variant? (.string (symbols _))).bind _ = _
      rw [variant?_string, Option.bind_some]
      exact Opcode.ofVariant?_variantName _ (by decide)
  legible_write opcode := by
    cases opcode with
    | push literal => exact .record (by simp [legible_write])
    | _ => exact .text _

instance : LawfulJsonForm Output where
  read?_write output := (bind_allFields?_record (by rfl) (by decide)).trans (by simp [read?_write])
  legible_write output := .record (by simp [legible_write])

instance : LawfulJsonForm Transaction where
  read?_write tx := by
    cases tx with
    | coinbase outputs =>
      show (variant? (variant "Coinbase" (record [("outputs", write outputs)]))).bind _ = _
      rw [variant?_variant, Option.bind_some]
      exact (bind_allFields?_record (by rfl) (by decide)).trans (by simp [read?_write])
    | spend inputs outputs =>
      show (variant? (variant "Normal"
        (record [("inputs", write inputs), ("outputs", write outputs)]))).bind _ = _
      rw [variant?_variant, Option.bind_some]
      exact (bind_allFields?_record (by rfl) (by decide)).trans (by simp [read?_write])
  legible_write tx := by
    cases tx with
    | coinbase outputs => exact .variant _ (.record (by simp [legible_write]))
    | spend inputs outputs => exact .variant _ (.record (by simp [legible_write]))

instance : LawfulJsonForm Header where
  read?_write header := (bind_allFields?_record (by rfl) (by decide)).trans (by simp [read?_write])
  legible_write header := .record (by simp [legible_write])

instance : LawfulJsonForm Block where
  read?_write block := (bind_allFields?_record (by rfl) (by decide)).trans (by simp [read?_write])
  legible_write block := .record (by simp [legible_write])

instance : LawfulJsonForm Coin where
  read?_write coin := (bind_allFields?_record (by rfl) (by decide)).trans (by simp [read?_write])
  legible_write coin := .record (by simp [legible_write])

/-- The text of a value spells its form and is read as the value, so no two values have one text. -/
structure ReadsBack (α : Type) [JsonForm α] : Prop where
  spells (a : α) : Spells (encode a).toList (write a)
  decode?_encode (a : α) : decode? (encode a) = some a
  encode_inj (a b : α) : encode a = encode b → a = b

theorem readsBack (α : Type) [JsonForm α] [LawfulJsonForm α] : ReadsBack α where
  spells := spells_encode
  decode?_encode := decode?_encode
  encode_inj a b h := by
    have hd : decode? (encode a) = some b := by rw [h, decode?_encode]
    rw [decode?_encode] at hd
    exact Option.some.inj hd

/-- All the forms of the ledger read back, from single opcodes to whole blocks. -/
theorem ledger_forms_read_back :
    ReadsBack OutPoint ∧ ReadsBack Unlock ∧ ReadsBack Input ∧ ReadsBack Output
      ∧ ReadsBack Transaction ∧ ReadsBack Header ∧ ReadsBack Block ∧ ReadsBack Coin
      ∧ ReadsBack Opcode ∧ ReadsBack Script :=
  ⟨readsBack _, readsBack _, readsBack _, readsBack _, readsBack _, readsBack _, readsBack _,
    readsBack _, readsBack _, readsBack _⟩

end CoinLedger

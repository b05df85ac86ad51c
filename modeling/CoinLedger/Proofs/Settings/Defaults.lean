import CoinLedger.Proofs.Json.RoundTrip
import CoinLedger.Settings.Basic

/-! Settings from a text that gives some of the fields. What decides is which of the known names are
among the members of the object, each at most once; their order does not matter, and whatever stands
under other names is passed over. A field that is not given has its default, and the rules for
settings apply to what comes of it. -/
namespace CoinLedger
open Json JsonForm LawfulJsonForm

namespace Settings

/-- The names that fields of settings are given by. -/
def names : List String := ["block_reward", "pow_leading_zeros", "max_mining_attempts"]

/-- The settings with the fields that are given, and the defaults elsewhere. -/
def keeping (settings : Settings) (given : String → Bool) : Settings where
  blockReward :=
    if given "block_reward" then settings.blockReward else ({} : Settings).blockReward
  leadingZeros :=
    if given "pow_leading_zeros" then settings.leadingZeros else ({} : Settings).leadingZeros
  maxAttempts :=
    if given "max_mining_attempts" then settings.maxAttempts else ({} : Settings).maxAttempts

/-- The text is read as the settings if they are sound, and is refused for their fault if not. -/
structure ReadFrom (settings : Settings) (text : String) : Prop where
  sound : settings.fault? = none → ofJson? text = .ok settings
  unsound (fault : SettingsFault) : settings.fault? = some fault → ofJson? text = .error fault

theorem map_fst_fields (settings : Settings) : settings.fields.map (·.1) = names := rfl

theorem nodup_names : names.Nodup := by decide

theorem legible_fields (settings : Settings) : ∀ field ∈ settings.fields, field.2.Legible := by
  simp [fields, legible_write]

theorem keeping_all (settings : Settings) : settings.keeping (fun _ => true) = settings := rfl

theorem readField?_given {α : Type} [JsonForm α] [LawfulJsonForm α] (default a : α)
    (given : Bool) :
    readField? default (if given then some (write a) else none)
      = some (if given then a else default) := by
  cases given with
  | true => exact read?_write a
  | false => rfl

section Given
variable {settings : Settings} {given : String → Bool} {members others : List (String × Value)}
  (hp : members.Perm (settings.fields.filter (fun field => given field.1) ++ others))
  (ho : ∀ other ∈ others, other.1 ∉ names)
include hp ho

theorem single?_given {field : String × Value} (hm : field ∈ settings.fields) :
    single? field.1 members = some (if given field.1 then some field.2 else none) := by
  have hothers : others.filter (·.1 = field.1) = [] := by
    apply List.filter_eq_nil_iff.mpr
    intro other hother he
    apply ho other hother
    rw [← settings.map_fst_fields, of_decide_eq_true he]
    exact List.mem_map_of_mem hm
  have hfield : settings.fields.filter (·.1 = field.1) = [field] :=
    filter_name_of_mem (settings.map_fst_fields ▸ nodup_names) hm
  have hf : (members.filter (·.1 = field.1)).Perm ([field].filter fun other => given other.1) := by
    have h := hp.filter (·.1 = field.1)
    rw [List.filter_append, hothers, List.append_nil, List.filter_filter] at h
    simp only [Bool.and_comm] at h
    rwa [← List.filter_filter, hfield] at h
  cases hg : given field.1 with
  | true =>
    have hone : [field].filter (fun other => given other.1) = [field] := by simp [hg]
    rw [hone] at hf
    rw [single?, List.perm_singleton.mp hf]
    rfl
  | false =>
    have hnone : [field].filter (fun other => given other.1) = [] := by simp [hg]
    rw [hnone] at hf
    rw [single?, List.perm_nil.mp hf]
    rfl

theorem read?_given : read? (record members) = some (settings.keeping given) := by
  have hf : fields? names (record members)
      = some (settings.fields.map fun field => if given field.1 then some field.2 else none) := by
    rw [fields?_record, ← settings.map_fst_fields]
    exact mapM_map_eq_some fun _ hm => single?_given hp ho hm
  show (fields? names (record members)).bind _ = _
  rw [hf, Option.bind_some]
  simp [fields, readField?_given, keeping]

end Given

theorem readFrom_of_read? {settings : Settings} {text : String} {value : Value}
    (ht : SpellsPadded text.toList value) (hr : read? value = some settings) :
    settings.ReadFrom text := by
  have hj : (parse? text).bind read? = some settings := by
    rw [parse?_of_spells ht, Option.bind_some, hr]
  refine ⟨?_, ?_⟩
  · intro hf
    simp only [ofJson?, hj, hf]
  · intro fault hf
    simp only [ofJson?, hj, hf]

/-- Settings are read back from their text, and so is any part of them, from a text that gives just
this part, in any order, in any spelling and with anything else between. -/
theorem texts_of_settings_read (settings : Settings) :
    settings.ReadFrom settings.toJson
      ∧ ∀ (given : String → Bool) (members others : List (String × Value)) (text : String),
        (∀ other ∈ others, other.1 ∉ names) →
        members.Perm (settings.fields.filter (fun field => given field.1) ++ others) →
        SpellsPadded text.toList (record members) → (settings.keeping given).ReadFrom text := by
  refine ⟨?_, ?_⟩
  · have hall : settings.fields.Perm (settings.fields.filter (fun _ => true) ++ []) := by
      rw [List.filter_eq_self.mpr fun _ _ => rfl, List.append_nil]
    have hno : ∀ other ∈ ([] : List (String × Value)), other.1 ∉ names := by simp
    have hr : read? (record settings.fields) = some (settings.keeping fun _ => true) :=
      read?_given hall hno
    rw [keeping_all] at hr
    exact readFrom_of_read? (spells_linewise settings.legible_fields) hr
  · intro given members others text ho hp ht
    exact readFrom_of_read? ht (read?_given hp ho)

/-- A text with one field, behind a name that means nothing here. -/
def sparse : String := "\x7b\"note\": [6.02e23, \"\\ud800\"],\n \"pow_leading_zeros\": 64\x7d"

/-- What a reader of settings passes over: a number that is no integer and half of a pair. -/
def note : String × Value := ("note", .array [.number .other, .string [.half 0xd800]])

def zeros : String × Value := ("pow_leading_zeros", write (64 : UInt64))

theorem spells_sparse : SpellsPadded sparse.toList (record [note, zeros]) := by
  have hspace : Blank [' '] := by simp [Blank, isBlank]
  have hbreak : Blank ['\n', ' '] := by simp [Blank, isBlank]
  have hd {digits : List Char} (hne : digits ≠ []) (h : digits.all Char.isDigit = true) :
      Digits digits := ⟨hne, List.all_eq_true.mp h⟩
  have hsix : Whole ['6'] := ⟨hd (by decide) (by decide), by decide⟩
  have hpoint : Fraction ['.', '0', '2'] := .point (hd (by decide) (by decide))
  have hpower : Exponent ['e', '2', '3'] :=
    .power (.inl rfl) (.inl rfl) (hd (by decide) (by decide))
  have hnumber : Spells "6.02e23".toList (.number .other) :=
    .number (.other (.inl rfl) hsix hpoint hpower (.inl (by decide)))
  have hhalf : Spells "\"\\ud800\"".toList (.string [.half 0xd800]) :=
    .string (.unit (by decide : unit? 'd' '8' '0' '0' = some 0xd800) .nil)
  have hitems : SpellsItems "6.02e23, \"\\ud800\"]".toList
      [.number .other, .string [.half 0xd800]] :=
    .more hnumber.padded (.last (.mk hspace hhalf blank_nil))
  have hnote : SpellsMember "\"note\": [6.02e23, \"\\ud800\"]".toList (named note) :=
    spellsMember_named blank_nil note (.mk hspace (.array hitems) blank_nil)
  have hvalue : Spells "64".toList zeros.2 := legible_write (64 : UInt64)
  have hzeros : SpellsMember "\n \"pow_leading_zeros\": 64".toList (named zeros) :=
    spellsMember_named hbreak zeros (.mk hspace hvalue blank_nil)
  exact Spells.padded (.object (.more hnote (.last hzeros)))

theorem ofJson?_sparse : ofJson? sparse = .ok { leadingZeros := 64 } := by
  have hp : [note, zeros].Perm
      ((fields ⟨7, 64, 9⟩).filter (fun field => field.1 = "pow_leading_zeros") ++ [note]) := by
    simpa [fields, zeros] using List.Perm.swap zeros note []
  have hn : ∀ other ∈ [note], other.1 ∉ names := by decide
  have hr := (texts_of_settings_read ⟨7, 64, 9⟩).2 (fun name => name = "pow_leading_zeros") _ _
    sparse hn hp spells_sparse
  exact hr.sound (by decide)

end Settings
end CoinLedger

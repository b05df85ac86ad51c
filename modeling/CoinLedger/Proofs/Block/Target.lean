import Mathlib.Data.Nat.Digits.Defs
import CoinLedger.Block.Mining

/-! The target of mining as a bound on a number. Zeros in front of a numeral, whatever its base, say
how small the number is: each takes one power of the base off the bound. A hash is a numeral of two
digits a byte, so a target bounds the number that its bytes spell, and neither a smaller number nor
fewer zeros can fail where a larger one or more of them passed. -/
namespace CoinLedger

/-- The digits in base sixteen, two for each byte. -/
def nibbles (bytes : Bytes) : List Nat :=
  bytes.flatMap fun byte => [byte.toNat / 16, byte.toNat % 16]

theorem nibbles_cons (byte : UInt8) (rest : Bytes) :
    nibbles (byte :: rest) = byte.toNat / 16 :: byte.toNat % 16 :: nibbles rest :=
  rfl

theorem length_nibbles (bytes : Bytes) : (nibbles bytes).length = 2 * bytes.length := by
  induction bytes with
  | nil => rfl
  | cons byte rest ih =>
    rw [nibbles_cons, List.length_cons, List.length_cons, List.length_cons, ih]
    omega

theorem lt_of_mem_nibbles {bytes : Bytes} : ∀ digit ∈ nibbles bytes, digit < 16 := by
  intro digit hd
  obtain ⟨byte, _, hm⟩ := List.mem_flatMap.mp hd
  have hb : byte.toNat < 256 := byte.toNat_lt
  simp only [List.mem_cons, List.not_mem_nil, or_false] at hm
  omega

/-- The digits spell the number that the bytes spell. -/
theorem ofDigits_nibbles (bytes : Bytes) :
    Nat.ofDigits 16 (nibbles bytes).reverse = bigEndianValue bytes := by
  induction bytes with
  | nil => rfl
  | cons byte rest ih =>
    have hpow : Nat.pow 256 rest.length = 16 ^ (2 * rest.length) := by
      rw [Nat.pow_mul]
      rfl
    have hsplit : 16 * (byte.toNat / 16) + byte.toNat % 16 = byte.toNat :=
      Nat.div_add_mod byte.toNat 16
    rw [nibbles_cons, Nat.ofDigits_reverse_cons, Nat.ofDigits_reverse_cons, ih, List.length_cons,
      length_nibbles, bigEndianValue_cons, hpow]
    calc
      bigEndianValue rest + 16 ^ (2 * rest.length) * (byte.toNat % 16)
            + 16 ^ (2 * rest.length + 1) * (byte.toNat / 16)
          = (16 * (byte.toNat / 16) + byte.toNat % 16) * 16 ^ (2 * rest.length)
            + bigEndianValue rest := by ring
      _ = byte.toNat * 16 ^ (2 * rest.length) + bigEndianValue rest := by rw [hsplit]

theorem hexDigits_eq_map (bytes : Bytes) :
    hexDigits bytes = (nibbles bytes).map Nat.digitChar := by
  rw [hexDigits, nibbles, List.map_flatMap]
  rfl

theorem leadingZeros_eq (hash : Hash) :
    leadingZeros hash = ((nibbles hash.bytes).takeWhile (· = 0)).length := by
  rw [leadingZeros, hexDigits_eq_map, List.takeWhile_map, List.length_map]
  simp only [Function.comp_def, Nat.digitChar_eq_zero]

/-- So many zeros stand in front of a numeral exactly if the number is below the power of the base
that the other digits leave room for. -/
theorem le_length_takeWhile_iff {base zeros : Nat} {digits : List Nat} (hb : 1 < base)
    (h : ∀ digit ∈ digits, digit < base) :
    zeros ≤ (digits.takeWhile (· = 0)).length ↔ zeros ≤ digits.length
      ∧ Nat.ofDigits base digits.reverse < base ^ (digits.length - zeros) := by
  induction digits generalizing zeros with
  | nil => simp
  | cons digit rest ih =>
    cases zeros with
    | zero =>
      have hlt : Nat.ofDigits base (digit :: rest).reverse < base ^ (digit :: rest).length := by
        rw [← List.length_reverse]
        apply Nat.ofDigits_lt_base_pow_length hb
        intro other ho
        exact h other (List.mem_reverse.mp ho)
      exact iff_of_true (Nat.zero_le _) ⟨Nat.zero_le _, hlt⟩
    | succ zeros =>
      rw [List.length_cons, Nat.add_sub_add_right, Nat.add_le_add_iff_right]
      by_cases hz : digit = 0
      · subst hz
        have hrest : ∀ other ∈ rest, other < base := fun other ho =>
          h other (List.mem_cons_of_mem 0 ho)
        rw [List.takeWhile_cons_of_pos (by simp), List.length_cons, Nat.add_le_add_iff_right,
          Nat.ofDigits_reverse_zero_cons, ih hrest]
      · rw [List.takeWhile_cons_of_neg (by simpa using hz)]
        refine iff_of_false (Nat.not_succ_le_zero zeros) ?_
        rintro ⟨_, hlt⟩
        have hge : base ^ (rest.length - zeros) ≤ Nat.ofDigits base (digit :: rest).reverse :=
          calc
            base ^ (rest.length - zeros) ≤ base ^ rest.length :=
              Nat.pow_le_pow_right (by omega) (Nat.sub_le _ _)
            _ ≤ base ^ rest.length * digit :=
              Nat.le_mul_of_pos_right _ (Nat.pos_of_ne_zero hz)
            _ ≤ Nat.ofDigits base (digit :: rest).reverse := by
              rw [Nat.ofDigits_reverse_cons]
              exact Nat.le_add_left _ _
        exact Nat.not_lt.mpr hge hlt

theorem meetsTarget_iff {hash : Hash} {zeros : Nat} : meetsTarget hash zeros = true
    ↔ zeros ≤ 64 ∧ bigEndianValue hash.bytes < 16 ^ (64 - zeros) := by
  have hl : (nibbles hash.bytes).length = 64 := by rw [length_nibbles, hash.length_bytes]
  rw [meetsTarget, decide_eq_true_iff, leadingZeros_eq,
    le_length_takeWhile_iff (by decide) lt_of_mem_nibbles, hl, ofDigits_nibbles]

/-- A target of so many zeros is a bound on the number that the hash spells. A smaller number meets
it too, and so does the same number a target of fewer zeros. -/
theorem targets_bound_numbers :
    (∀ (hash : Hash) (zeros : Nat), meetsTarget hash zeros = true
        ↔ zeros ≤ 64 ∧ bigEndianValue hash.bytes < 16 ^ (64 - zeros))
      ∧ ∀ (hash other : Hash) (zeros fewer : Nat),
        bigEndianValue other.bytes ≤ bigEndianValue hash.bytes → fewer ≤ zeros →
        meetsTarget hash zeros = true → meetsTarget other fewer = true := by
  refine ⟨fun _ _ => meetsTarget_iff, ?_⟩
  intro hash other zeros fewer hv hz h
  obtain ⟨hle, hlt⟩ := meetsTarget_iff.mp h
  refine meetsTarget_iff.mpr ⟨hz.trans hle, ?_⟩
  calc
    bigEndianValue other.bytes ≤ bigEndianValue hash.bytes := hv
    _ < 16 ^ (64 - zeros) := hlt
    _ ≤ 16 ^ (64 - fewer) := Nat.pow_le_pow_right (by decide) (Nat.sub_le_sub_left hz 64)

/-- A hash of a zero byte and this one in all other places. -/
def zeroThen (byte : UInt8) : Hash :=
  ⟨0 :: List.replicate 31 byte, rfl⟩

/-- The zeros of a hash can end in the middle of a byte, or not at all. -/
theorem zeroThen_bounded :
    meetsTarget (zeroThen 15) 3 = true ∧ meetsTarget (zeroThen 15) 4 ≠ true
      ∧ meetsTarget (zeroThen 0) 64 = true ∧ meetsTarget (zeroThen 0) 65 ≠ true
      ∧ bigEndianValue (zeroThen 0).bytes ≤ bigEndianValue (zeroThen 15).bytes
      ∧ meetsTarget (zeroThen 0) 2 = true := by
  obtain ⟨hbound, hsmaller⟩ := targets_bound_numbers
  have hthree : meetsTarget (zeroThen 15) 3 = true := by
    rw [hbound]
    decide +kernel
  have hle : bigEndianValue (zeroThen 0).bytes ≤ bigEndianValue (zeroThen 15).bytes := by
    decide +kernel
  refine ⟨hthree, ?_, ?_, ?_, hle, hsmaller _ _ 3 2 hle (by decide) hthree⟩
  · rw [ne_eq, hbound]
    decide +kernel
  · rw [hbound]
    decide +kernel
  · rw [ne_eq, hbound]
    decide +kernel

end CoinLedger

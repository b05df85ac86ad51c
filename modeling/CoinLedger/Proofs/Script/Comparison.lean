import Mathlib.Data.List.TakeWhile
import CoinLedger.Proofs.Script.Run

/-! How scripts compare byte strings. They compare the numbers that these spell, and of two numbers
that have no leading zero the one with more bytes is the larger one; with as many bytes, the first
byte where they part decides. So zeros in front are the only bytes that a comparison passes over,
and a byte string counts as zero if it has no others. -/
namespace CoinLedger

/-- What is left of a byte string after its leading zeros. -/
def significant (bytes : Bytes) : Bytes :=
  bytes.dropWhile (· == 0)

/-- Nothing but zeros; the empty byte string is such a one. -/
def AllZero (bytes : Bytes) : Prop :=
  ∀ byte ∈ bytes, byte = 0

instance (bytes : Bytes) : Decidable (AllZero bytes) :=
  List.decidableBAll (· = 0) bytes

theorem bigEndianValue_lt (bytes : Bytes) : bigEndianValue bytes < Nat.pow 256 bytes.length := by
  induction bytes with
  | nil => decide
  | cons byte rest ih =>
    have hb : byte.toNat + 1 ≤ 256 := byte.toNat_lt
    have hm := Nat.mul_le_mul_right (Nat.pow 256 rest.length) hb
    rw [Nat.add_mul, Nat.one_mul] at hm
    rw [bigEndianValue_cons, List.length_cons, pow_256_succ]
    omega

/-- Of two numerals over one base the first digit decides, and the rest only if it is the same. -/
theorem digit_lt_iff {m r s a b : Nat} (hr : r < m) (hs : s < m) :
    a * m + r < b * m + s ↔ a < b ∨ a = b ∧ r < s := by
  obtain hlt | rfl | hgt := Nat.lt_trichotomy a b
  · have hm := Nat.mul_le_mul_right m hlt
    rw [Nat.succ_mul] at hm
    exact iff_of_true (by omega) (Or.inl hlt)
  · simp
  · have hm := Nat.mul_le_mul_right m hgt
    rw [Nat.succ_mul] at hm
    exact iff_of_false (by omega) (by omega)

/-- Numbers of as many bytes are in the order of their bytes. -/
theorem bigEndianValue_lt_iff_of_length_eq {a b : Bytes} (hl : a.length = b.length) :
    bigEndianValue a < bigEndianValue b ↔ a < b := by
  induction a generalizing b with
  | nil =>
    have hb : b = [] := List.length_eq_zero_iff.mp hl.symm
    simp [hb]
  | cons x rest ih =>
    cases b with
    | nil => cases hl
    | cons y tail =>
      have ht : rest.length = tail.length := Nat.succ.inj hl
      have hr := bigEndianValue_lt rest
      have hs := bigEndianValue_lt tail
      rw [← ht] at hs
      rw [bigEndianValue_cons, bigEndianValue_cons, ← ht, digit_lt_iff hr hs, ih ht,
        List.cons_lt_cons_iff, UInt8.lt_iff_toNat_lt, UInt8.toNat_inj]

theorem bigEndianValue_inj {a b : Bytes} (hl : a.length = b.length)
    (h : bigEndianValue a = bigEndianValue b) : a = b := by
  apply List.le_antisymm
  · rw [← List.not_lt, ← bigEndianValue_lt_iff_of_length_eq hl.symm]
    omega
  · rw [← List.not_lt, ← bigEndianValue_lt_iff_of_length_eq hl]
    omega

theorem bigEndianValue_significant (bytes : Bytes) :
    bigEndianValue (significant bytes) = bigEndianValue bytes := by
  induction bytes with
  | nil => rfl
  | cons byte rest ih =>
    by_cases hz : byte = 0
    · rw [significant, List.dropWhile_cons_of_pos (by simp [hz]), ← significant, ih,
        bigEndianValue_cons, hz, UInt8.toNat_zero, Nat.zero_mul, Nat.zero_add]
    · rw [significant, List.dropWhile_cons_of_neg (by simp [hz])]

theorem significant_eq_nil_iff {bytes : Bytes} :
    significant bytes = [] ↔ AllZero bytes := by
  rw [significant, List.dropWhile_eq_nil_iff, AllZero]
  simp only [beq_iff_eq]

theorem head_ne_zero_of_significant {bytes rest : Bytes} {byte : UInt8}
    (h : significant bytes = byte :: rest) : byte ≠ 0 := by
  have hhead := List.head?_dropWhile_not (· == 0) bytes
  rw [← significant, h] at hhead
  simpa using hhead

/-- Without leading zeros, more bytes spell a larger number. -/
theorem bigEndianValue_lt_of_length_lt {a b : Bytes}
    (h : (significant a).length < (significant b).length) :
    bigEndianValue a < bigEndianValue b := by
  rw [← bigEndianValue_significant a, ← bigEndianValue_significant b]
  cases hb : significant b with
  | nil => simp [hb] at h
  | cons byte rest =>
    have hpos : 1 ≤ byte.toNat := by
      have hne := UInt8.toNat_inj.not.mpr (head_ne_zero_of_significant hb)
      exact Nat.one_le_iff_ne_zero.mpr hne
    rw [hb, List.length_cons] at h
    calc
      bigEndianValue (significant a) < Nat.pow 256 (significant a).length :=
        bigEndianValue_lt _
      _ ≤ Nat.pow 256 rest.length := Nat.pow_le_pow_right (by decide) (Nat.le_of_lt_succ h)
      _ ≤ byte.toNat * Nat.pow 256 rest.length := Nat.le_mul_of_pos_left _ hpos
      _ ≤ bigEndianValue (byte :: rest) := by
        rw [bigEndianValue_cons]
        exact Nat.le_add_right _ _

theorem bigEndianValue_le_iff {x y : Bytes} : bigEndianValue y ≤ bigEndianValue x
    ↔ (significant y).length < (significant x).length
      ∨ (significant y).length = (significant x).length ∧ significant y ≤ significant x := by
  obtain hlt | heq | hgt := Nat.lt_trichotomy (significant y).length (significant x).length
  · exact iff_of_true (Nat.le_of_lt (bigEndianValue_lt_of_length_lt hlt)) (Or.inl hlt)
  · rw [← bigEndianValue_significant x, ← bigEndianValue_significant y, ← Nat.not_lt,
      bigEndianValue_lt_iff_of_length_eq heq.symm, List.not_lt]
    simp [heq]
  · have hv := bigEndianValue_lt_of_length_lt hgt
    exact iff_of_false (by omega) (by omega)

theorem bigEndianValue_eq_iff {x y : Bytes} :
    bigEndianValue x = bigEndianValue y ↔ significant x = significant y := by
  constructor
  · intro h
    have hx : ¬(significant x).length < (significant y).length := fun hl =>
      Nat.ne_of_lt (bigEndianValue_lt_of_length_lt hl) h
    have hy : ¬(significant y).length < (significant x).length := fun hl =>
      Nat.ne_of_lt (bigEndianValue_lt_of_length_lt hl) h.symm
    apply bigEndianValue_inj (by omega)
    rw [bigEndianValue_significant, bigEndianValue_significant, h]
  · intro h
    rw [← bigEndianValue_significant x, h, bigEndianValue_significant]

theorem isZero_iff {bytes : Bytes} : isZero bytes = true ↔ AllZero bytes := by
  rw [isZero, decide_eq_true_iff, ← bigEndianValue_nil, bigEndianValue_eq_iff,
    ← significant_eq_nil_iff]
  rfl

theorem flag_decide (p : Prop) [Decidable p] :
    flag (decide p) = if p then [0x01] else [0x00] := by
  by_cases hp : p <;> simp [flag, hp]

namespace Script
variable {tx : Transaction} {input position : Nat} {stack : Stack} {script : Script}

theorem runFrom_geq (x y : Bytes) : runFrom tx input position (x :: y :: stack) (.geq :: script)
    = runFrom tx input (position + 1) (flag (bigEndianValue y ≤ bigEndianValue x) :: stack)
        script :=
  runFrom_of_next rfl

theorem runFrom_eq (x y : Bytes) : runFrom tx input position (x :: y :: stack) (.eq :: script)
    = runFrom tx input (position + 1) (flag (bigEndianValue x = bigEndianValue y) :: stack)
        script :=
  runFrom_of_next rfl

theorem runFrom_verify (x : Bytes) : runFrom tx input position (x :: stack) (.verify :: script)
    = if isZero x then .ok ⟨false, stack⟩ else runFrom tx input (position + 1) stack script := by
  rw [runFrom, Opcode.step]
  cases isZero x with
  | true => rfl
  | false => rfl

theorem runFrom_select (x zero other : Bytes) :
    runFrom tx input position (x :: zero :: other :: stack) (.select :: script)
      = runFrom tx input (position + 1) ((if isZero x then zero else other) :: stack) script :=
  runFrom_of_next rfl

end Script
open Script

/-- Comparisons are exact on byte strings of any length: zeros in front apart, the longer one is the
larger one, and among those of one length the order is that of the bytes. Where an opcode or the
end of a script asks whether an item is zero, it asks whether the item has no byte other than
zero. -/
theorem comparisons_exact (tx : Transaction) (input position : Nat) (stack : Stack)
    (script : Script) (x y : Bytes) :
    runFrom tx input position (x :: y :: stack) (.geq :: script)
        = runFrom tx input (position + 1)
          ((if (significant y).length < (significant x).length
              ∨ (significant y).length = (significant x).length ∧ significant y ≤ significant x
            then [0x01] else [0x00]) :: stack) script
      ∧ runFrom tx input position (x :: y :: stack) (.eq :: script)
        = runFrom tx input (position + 1)
          ((if significant x = significant y then [0x01] else [0x00]) :: stack) script
      ∧ (x.length = y.length → (significant x = significant y ↔ x = y))
      ∧ runFrom tx input position (x :: stack) (.verify :: script)
        = (if AllZero x then .ok ⟨false, stack⟩
          else runFrom tx input (position + 1) stack script)
      ∧ (∀ zero other, runFrom tx input position (x :: zero :: other :: stack) (.select :: script)
        = runFrom tx input (position + 1)
          ((if AllZero x then zero else other) :: stack) script)
      ∧ ((Outcome.mk true (x :: stack)).accepted = false ↔ AllZero x) := by
  refine ⟨?_, ?_, ?_, ?_, ?_, ?_⟩
  · simp only [runFrom_geq, bigEndianValue_le_iff, flag_decide]
  · simp only [runFrom_eq, bigEndianValue_eq_iff, flag_decide]
  · intro hl
    rw [← bigEndianValue_eq_iff]
    exact ⟨bigEndianValue_inj hl, congrArg bigEndianValue⟩
  · simp only [runFrom_verify, isZero_iff]
  · intro zero other
    simp only [runFrom_select, isZero_iff]
  · simp [Outcome.accepted, Outcome.top?, isZero_iff]

/-- The number 256 on top of 255, both with zeros in front. -/
theorem paddedNumbers_compared :
    runFrom (.coinbase []) 0 0 [[0, 1, 0], [0, 0, 255]] [.geq] = .ok ⟨true, [[1]]⟩
      ∧ runFrom (.coinbase []) 0 0 [[0, 1, 0], [0, 0, 255]] [.eq] = .ok ⟨true, [[0]]⟩
      ∧ runFrom (.coinbase []) 0 0 [[0, 1, 0]] [.verify] = .ok ⟨true, []⟩
      ∧ significant [0, 1, 0] ≠ significant [0, 0, 255] := by
  obtain ⟨hgeq, heq, hinj, hverify, _⟩ :=
    comparisons_exact (.coinbase []) 0 0 [] [] [0, 1, 0] [0, 0, 255]
  refine ⟨hgeq, heq, hverify, ?_⟩
  intro h
  have hxy : ([0, 1, 0] : Bytes) = [0, 0, 255] := (hinj rfl).mp h
  exact absurd hxy (by decide)

end CoinLedger

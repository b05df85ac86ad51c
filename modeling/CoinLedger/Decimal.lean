/-! The decimal digits of numbers of any length. A number is cut in two at a power of ten and each part
again, so that a number of many digits costs few long divisions. The digits are the usual ones, and
so is the text: `decimalDigits_eq_toDigits` and `decimalText_eq_repr`. -/
namespace CoinLedger

/-- The number of digits of a block at this level. -/
def blockWidth (level : Nat) : Nat := Nat.pow 2 level

/-- The first number that a block at this level has no room for. -/
def blockUnit (level : Nat) : Nat := Nat.pow 10 (blockWidth level)

/-- The lowest digits of a number, as many as a block at this level has. -/
def decimalBlock : Nat → Nat → List Char
  | 0, n => [Nat.digitChar (n % 10)]
  | level + 1, n =>
    decimalBlock level (n / blockUnit level) ++ decimalBlock level (n % blockUnit level)

/-- The digits of a number, without zeros in front; blocks are cut off from this level down. -/
def decimalFrom : Nat → Nat → List Char
  | 0, n => Nat.toDigits 10 n
  | level + 1, n =>
    if n < blockUnit level then decimalFrom level n
    else decimalFrom level (n / blockUnit level) ++ decimalBlock level (n % blockUnit level)

/-- The digits of a number. A block at the level that it starts from would hold them all. -/
def decimalDigits (n : Nat) : List Char :=
  decimalFrom (Nat.log2 (Nat.log2 n + 1) + 1) n

def decimalText (n : Nat) : String :=
  String.ofList (decimalDigits n)

theorem blockUnit_pos (level : Nat) : 0 < blockUnit level := Nat.pow_pos (by decide)

theorem blockUnit_succ (level : Nat) : blockUnit (level + 1) = blockUnit level * blockUnit level := by
  have width : blockWidth (level + 1) = blockWidth level + blockWidth level := Nat.mul_two _
  rw [blockUnit, width]
  exact Nat.pow_add 10 _ _

/-- A block continues the digits of a number that is not zero. -/
theorem toDigits_append_block (level : Nat) {front : Nat} (hf : 0 < front) (n : Nat) :
    Nat.toDigits 10 front ++ decimalBlock level n
      = Nat.toDigits 10 (blockUnit level * front + n % blockUnit level) := by
  induction level generalizing front n with
  | zero =>
    have hd : n % 10 < 10 := Nat.mod_lt n (by decide)
    have h := Nat.toDigits_append_toDigits (by decide) hf hd
    rwa [Nat.toDigits_of_lt_base hd] at h
  | succ level ih =>
    have hm : 0 < blockUnit level * front + n / blockUnit level % blockUnit level :=
      Nat.add_pos_left (Nat.mul_pos (blockUnit_pos level) hf) _
    rw [decimalBlock, ← List.append_assoc, ih hf, ih hm, Nat.mod_mod, blockUnit_succ, Nat.mod_mul,
      Nat.mul_add, Nat.mul_assoc, Nat.add_assoc, Nat.add_comm (n % blockUnit level)]

theorem decimalFrom_eq_toDigits (level n : Nat) : decimalFrom level n = Nat.toDigits 10 n := by
  induction level generalizing n with
  | zero => rfl
  | succ level ih =>
    rw [decimalFrom]
    split
    · exact ih n
    · rename_i hn
      have hq : 0 < n / blockUnit level :=
        Nat.div_pos (Nat.le_of_not_lt hn) (blockUnit_pos level)
      rw [ih, toDigits_append_block level hq, Nat.mod_mod, Nat.div_add_mod]

theorem decimalDigits_eq_toDigits (n : Nat) : decimalDigits n = Nat.toDigits 10 n :=
  decimalFrom_eq_toDigits _ n

theorem decimalText_eq_repr (n : Nat) : decimalText n = Nat.repr n := by
  rw [decimalText, decimalDigits_eq_toDigits, Nat.repr]

end CoinLedger

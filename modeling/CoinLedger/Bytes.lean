/-! Byte strings and the numbers they spell. `bigEndianValue_cons` gives the value of a byte string
one byte at a time, and `length_littleEndian` the width of a written number. -/
namespace CoinLedger

/-- A byte string, first byte first. -/
abbrev Bytes := List UInt8

/-- The lowest `width` bytes of a number, lowest byte first. -/
def littleEndian : Nat → Nat → Bytes
  | 0, _ => []
  | width + 1, n => UInt8.ofNat n :: littleEndian width (n / 256)

/-- The lowest `width` bytes of a number, highest byte first. -/
def bigEndian (width n : Nat) : Bytes :=
  (littleEndian width n).reverse

/-- The unsigned number whose bytes these are, highest first; no bytes spell zero. -/
def foldBigEndian (bytes : Bytes) : Nat :=
  bytes.foldl (fun n byte => n * 256 + byte.toNat) 0

/-- The same number from the two halves of a long byte string, each halved again up to `rounds`
times, which keeps the long multiplications few. -/
def halveBigEndian : Nat → Bytes → Nat
  | 0, bytes => foldBigEndian bytes
  | rounds + 1, bytes =>
    if bytes.length ≤ 32 then foldBigEndian bytes
    else
      let back := bytes.length - bytes.length / 2
      halveBigEndian rounds (bytes.take (bytes.length / 2)) * Nat.pow 256 back
        + halveBigEndian rounds (bytes.drop (bytes.length / 2))

/-- The unsigned number whose bytes these are, highest first. -/
def bigEndianValue (bytes : Bytes) : Nat :=
  halveBigEndian 64 bytes

def hexDigits (bytes : Bytes) : List Char :=
  bytes.flatMap fun byte => [Nat.digitChar (byte.toNat / 16), Nat.digitChar (byte.toNat % 16)]

/-- The hexadecimal text of a byte string, in lower case. -/
def hexText (bytes : Bytes) : String :=
  String.ofList (hexDigits bytes)

theorem length_littleEndian (width n : Nat) : (littleEndian width n).length = width := by
  induction width generalizing n with
  | zero => rfl
  | succ width ih => simp [littleEndian, ih]

theorem length_bigEndian (width n : Nat) : (bigEndian width n).length = width := by
  simp [bigEndian, length_littleEndian]

theorem pow_256_succ (count : Nat) : Nat.pow 256 (count + 1) = 256 * Nat.pow 256 count :=
  Nat.mul_comm _ _

theorem foldl_bytes (n : Nat) (bytes : Bytes) :
    bytes.foldl (fun n byte => n * 256 + byte.toNat) n
      = n * Nat.pow 256 bytes.length + foldBigEndian bytes := by
  induction bytes generalizing n with
  | nil => simp [foldBigEndian]
  | cons byte rest ih =>
    simp only [List.foldl_cons, List.length_cons, foldBigEndian]
    rw [ih (n * 256 + byte.toNat), ih (0 * 256 + byte.toNat)]
    rw [Nat.zero_mul, Nat.zero_add, Nat.add_mul, pow_256_succ, Nat.mul_assoc, Nat.add_assoc]

theorem foldBigEndian_append (front back : Bytes) :
    foldBigEndian (front ++ back)
      = foldBigEndian front * Nat.pow 256 back.length + foldBigEndian back := by
  rw [foldBigEndian, List.foldl_append, foldl_bytes]
  rfl

theorem halveBigEndian_eq (rounds : Nat) (bytes : Bytes) :
    halveBigEndian rounds bytes = foldBigEndian bytes := by
  induction rounds generalizing bytes with
  | zero => rfl
  | succ rounds ih =>
    simp only [halveBigEndian]
    split
    · rfl
    · rw [ih, ih, ← List.length_drop, ← foldBigEndian_append, List.take_append_drop]

theorem bigEndianValue_nil : bigEndianValue [] = 0 := rfl

theorem bigEndianValue_append (front back : Bytes) :
    bigEndianValue (front ++ back)
      = bigEndianValue front * Nat.pow 256 back.length + bigEndianValue back := by
  simp only [bigEndianValue, halveBigEndian_eq, foldBigEndian_append]

theorem bigEndianValue_eq_fold (bytes : Bytes) : bigEndianValue bytes = foldBigEndian bytes :=
  halveBigEndian_eq 64 bytes

theorem bigEndianValue_cons (byte : UInt8) (rest : Bytes) :
    bigEndianValue (byte :: rest)
      = byte.toNat * Nat.pow 256 rest.length + bigEndianValue rest := by
  rw [← List.singleton_append, bigEndianValue_append, bigEndianValue_eq_fold [byte]]
  simp [foldBigEndian]

end CoinLedger

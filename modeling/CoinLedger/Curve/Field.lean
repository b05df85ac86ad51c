/-! Arithmetic modulo the two primes of the curve secp256k1: that of its coordinates and that of its
scalars. Inverses and square roots are powers. -/
namespace CoinLedger.Curve

def fieldPrime : Nat :=
  0xfffffffffffffffffffffffffffffffffffffffffffffffffffffffefffffc2f

/-- The number of points of the curve, which is the modulus of the scalars. -/
def order : Nat :=
  0xfffffffffffffffffffffffffffffffebaaedce6af48a03bbfd25e8cd0364141

/-- A coordinate: an integer modulo `fieldPrime`. -/
abbrev FieldElem := Fin fieldPrime

def FieldElem.ofNat (n : Nat) : FieldElem :=
  ⟨n % fieldPrime, Nat.mod_lt n (Nat.zero_lt_succ _)⟩

instance : OfNat FieldElem n := ⟨FieldElem.ofNat n⟩

/-- A power modulo `modulus`, from the lowest `bits` bits of the exponent. -/
def powerMod (modulus : Nat) : Nat → Nat → Nat → Nat
  | 0, _, _ => 1 % modulus
  | bits + 1, base, exponent =>
    let rest := powerMod modulus bits (base * base % modulus) (exponent / 2)
    if exponent % 2 = 1 then base * rest % modulus else rest

/-- The power of a coordinate by an exponent below `2 ^ 256`. -/
def FieldElem.power (x : FieldElem) (exponent : Nat) : FieldElem :=
  FieldElem.ofNat (powerMod fieldPrime 256 x.val exponent)

def FieldElem.inverse (x : FieldElem) : FieldElem :=
  FieldElem.power x (fieldPrime - 2)

/-- A square root, where there is one; the prime is three modulo four. -/
def FieldElem.sqrt? (x : FieldElem) : Option FieldElem :=
  let root := FieldElem.power x ((fieldPrime + 1) / 4)
  if root * root = x then some root else none

/-- The inverse of a scalar, and zero for zero. -/
def scalarInverse (k : Nat) : Nat :=
  powerMod order 256 k (order - 2)

end CoinLedger.Curve

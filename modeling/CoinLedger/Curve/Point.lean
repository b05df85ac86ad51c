import CoinLedger.Curve.Field

/-! Points of the curve `y² = x³ + 7`, kept as fractions so that adding needs no inverse. -/
namespace CoinLedger.Curve

/-- The point `(x / z², y / z³)`; the point at infinity has `z = 0`. -/
structure Point where
  x : FieldElem
  y : FieldElem
  z : FieldElem
deriving DecidableEq

namespace Point

def infinity : Point := ⟨1, 1, 0⟩

def generator : Point where
  x := 0x79be667ef9dcbbac55a06295ce870b07029bfcdb2dce28d959f2815b16f81798
  y := 0x483ada7726a3c4655da4fbfc0e1108a8fd17b448a68554199c47d08ffb10d4b8
  z := 1

/-- A point doubled; infinity stays, since its `z` is a factor of the new one. -/
def double (p : Point) : Point :=
  let square := p.y * p.y
  let shift := 4 * (p.x * square)
  let slope := 3 * (p.x * p.x)
  let x := slope * slope - 2 * shift
  ⟨x, slope * (shift - x) - 8 * (square * square), 2 * (p.y * p.z)⟩

def add (p q : Point) : Point :=
  if p.z = 0 then q
  else if q.z = 0 then p
  else
    let pz := p.z * p.z
    let qz := q.z * q.z
    let px := p.x * qz
    let qx := q.x * pz
    let py := p.y * (qz * q.z)
    let qy := q.y * (pz * p.z)
    let run := qx - px
    let rise := qy - py
    if run = 0 then
      if rise = 0 then p.double else infinity
    else
      let run2 := run * run
      let run3 := run2 * run
      let shift := px * run2
      let x := rise * rise - run3 - 2 * shift
      ⟨x, rise * (shift - x) - py * run3, p.z * q.z * run⟩

/-- The multiple of a point by the lowest `bits` bits of a number, added to `sum`. -/
def addMultiple : Nat → Point → Nat → Point → Point
  | 0, sum, _, _ => sum
  | bits + 1, sum, k, p =>
    addMultiple bits (if k % 2 = 1 then sum.add p else sum) (k / 2) p.double

def multiple (p : Point) (k : Nat) : Point :=
  addMultiple 256 infinity k p

def affine? (p : Point) : Option (FieldElem × FieldElem) :=
  if p.z = 0 then none
  else
    let inverse := FieldElem.inverse p.z
    let inverse2 := inverse * inverse
    some (p.x * inverse2, p.y * (inverse2 * inverse))

end Point
end CoinLedger.Curve

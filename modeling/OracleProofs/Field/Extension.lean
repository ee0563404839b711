/-
# A quadratic extension and a binary field

Small primes leave too few challenges, so the protocols also run over the
elements `c0 + c1 * u` with `u² = 7` over the prime `2 ^ 64 - 2 ^ 32 + 1`, for
which seven is not a square. An element is inverted through its norm
`c0² - 7 * c1²`, which lies in the prime field. The root of unity is the one of
the prime field: evaluation domains stay inside it up to their shift.

The binary field consists of the polynomials over the field of two elements,
modulo `x ^ 16 + x ^ 12 + x ^ 3 + x + 1`. Bit `i` of an element is its coefficient
of `x ^ i`, so addition is exclusive or and every element is its own negative. The
units have odd order, hence the two-adic subgroup is trivial: over this field
only affine subspaces and single points are evaluation domains.
-/

import OracleProofs.Field.Prime

namespace OracleProofs

/-- The element `c0 + c1 * u`, where `u² = 7`. -/
structure GoldilocksExtension where
  c0 : Goldilocks
  c1 : Goldilocks
  deriving DecidableEq

namespace GoldilocksExtension

/-- The square of the adjoined root. -/
def radicand : Goldilocks := Residue.ofNat 7

/-- The product, with `u²` replaced by seven. -/
def mul (a b : GoldilocksExtension) : GoldilocksExtension :=
  ⟨.sumOfProducts a.c0 b.c0 (radicand * a.c1) b.c1, .sumOfProducts a.c0 b.c1 a.c1 b.c0⟩

/-- The product of an element and its conjugate. -/
def norm (a : GoldilocksExtension) : Goldilocks :=
  a.c0 * a.c0 - radicand * (a.c1 * a.c1)

/-- The conjugate divided by the norm. -/
def inv (a : GoldilocksExtension) : GoldilocksExtension :=
  let scale := (norm a)⁻¹
  ⟨a.c0 * scale, -a.c1 * scale⟩

instance : FiniteField GoldilocksExtension where
  zero := ⟨0, 0⟩
  one := ⟨1, 0⟩
  add a b := ⟨a.c0 + b.c0, a.c1 + b.c1⟩
  sub a b := ⟨a.c0 - b.c0, a.c1 - b.c1⟩
  neg a := ⟨-a.c0, -a.c1⟩
  mul := mul
  inv := inv
  decideEq := inferInstance
  twoAdicity := FiniteField.twoAdicity Goldilocks
  twoAdicRoot := ⟨FiniteField.twoAdicRoot, 0⟩
  bitLength := 2 * FiniteField.bitLength Goldilocks
  encode a := FiniteField.encode a.c0 ++ FiniteField.encode a.c1
  describe a :=
    "QuadExtField \x7b c0: " ++ FiniteField.describe a.c0 ++ ", c1: " ++
      FiniteField.describe a.c1 ++ " \x7d"

end GoldilocksExtension

/-- A polynomial of degree below sixteen over the field of two elements. -/
structure BinaryField where
  bits : UInt16
  deriving DecidableEq

namespace BinaryField

/-- The element with the low sixteen bits of a number. -/
def ofNat (number : Nat) : BinaryField := ⟨.ofNat number⟩

/-- The lower coefficients of the modulus: what `x ^ 16` is congruent to. -/
def reduction : UInt16 := 0x100b

/-- The product with `x`. The coefficient of `x ^ 15` moves out of range and is
brought back through the modulus. -/
def timesX (bits : UInt16) : UInt16 :=
  if bits < 0x8000 then bits <<< 1 else (bits <<< 1) ^^^ reduction

/-- The sum of `left * x ^ i` over the set bits `i` of `right`, of which the
lowest `count` are looked at. -/
def mulBits : (count : Nat) → (left right : UInt16) → UInt16
  | 0, _, _ => 0
  | count + 1, left, right =>
      let rest := mulBits count (timesX left) (right >>> 1)
      if right &&& 1 = 0 then rest else left ^^^ rest

/-- The product of two elements. -/
def mul (a b : BinaryField) : BinaryField := ⟨mulBits 16 a.bits b.bits⟩

/-- The product with nothing multiplied. -/
def one : BinaryField := ⟨1⟩

instance : One BinaryField := ⟨one⟩

instance : Mul BinaryField := ⟨mul⟩

instance : FiniteField BinaryField where
  zero := ⟨0⟩
  one := one
  add a b := ⟨a.bits ^^^ b.bits⟩
  sub a b := ⟨a.bits ^^^ b.bits⟩
  neg a := a
  mul := mul
  inv a := power a 65534
  decideEq := inferInstance
  twoAdicity := 0
  twoAdicRoot := one
  bitLength := 16
  encode a := littleEndian 8 a.bits.toNat
  describe a := toString a.bits.toNat

end BinaryField
end OracleProofs

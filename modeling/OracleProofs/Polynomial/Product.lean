/-
# Transforms and fast products

A polynomial of at most `2 ^ dimension` coefficients is evaluated at all powers
of a root of unity of that order. Its even and its odd coefficients make two
polynomials of half the length, to be evaluated at the powers of the squared
root, and each pair of their values gives two values of the whole, because half
the order of the root brings it to `-1`.

Long polynomials are multiplied through their values: both are evaluated on a
subgroup with room for the product, and the products of the values are
interpolated. Short polynomials, and those too long for every subgroup of the
field, are multiplied coefficient by coefficient.
-/

import OracleProofs.Binary.Word
import OracleProofs.Polynomial.Dense
import OracleProofs.Random.Source

namespace OracleProofs

variable {F : Type} [FiniteField F]

/-- Every second entry from `start` on, `count` entries in all. Entries that are
missing count as zero. -/
def everySecond (start count : Nat) (values : Array F) : Array F :=
  Array.ofFn fun place : Fin count => values.getD (2 * place + start) 0

/-- The transform for a root whose powers, as many as half its order, are known.
Every second one of them is a power of the squared root. -/
def transformBy : (dimension : Nat) → (powers : Array F) → (coefficients : Array F) → Array F
  | 0, _, coefficients => #[coefficients.getD 0 0]
  | dimension + 1, powers, coefficients =>
      let half := 1 <<< dimension
      let squares := everySecond 0 (half / 2) powers
      let even := transformBy dimension squares (everySecond 0 half coefficients)
      let odd := transformBy dimension squares (everySecond 1 half coefficients)
      let turned := Array.zipWith (· * ·) powers odd
      Array.zipWith (· + ·) even turned ++ Array.zipWith (· - ·) even turned

/-- The values of a polynomial at `1, root, root², …`, for a root of order
`2 ^ dimension`. Coefficients that are missing count as zero. -/
def transform (dimension : Nat) (root : F) (coefficients : Array F) : Array F :=
  transformBy dimension (geometric root ((1 <<< dimension) / 2) 1) coefficients

/-- Multiplies entry `i` by `ratio ^ i`: the coefficients of the polynomial in a
stretched variable. -/
def stretch (ratio : F) (coefficients : Array F) : Array F :=
  Array.zipWith (· * ·) coefficients (geometric ratio coefficients.size 1)

/-- The coefficients of the polynomial with the given values at the powers of
the root. The transform by the inverse root multiplies every coefficient by the
number of values, which is divided out. -/
def inverseTransform (dimension : Nat) (root : F) (values : Array F) : Array F :=
  let scale := (FiniteField.ofNat (1 <<< dimension) : F)⁻¹
  (transform dimension (power root (1 <<< dimension - 1)) values).map (· * scale)

/-- Reduces a polynomial modulo `x ^ size - wrap`: the coefficients at the places
`i, i + size, i + 2 * size, …` are added up with the powers of `wrap`. -/
def wrapAround (size : Nat) (wrap : F) (coefficients : Array F) : Array F :=
  let chunks := (coefficients.size + size - 1) / size
  let factors := geometric wrap chunks 1
  Array.ofFn fun place : Fin size =>
    FiniteField.sumRange chunks fun chunk =>
      coefficients.getD (chunk * size + place) 0 * factors.getD chunk 0

namespace DensePoly

/-- Products with a factor of fewer coefficients are not worth a transform. -/
def transformThreshold : Nat := 64

/-- The product through values on a subgroup of order `2 ^ dimension`. -/
def transformMul (dimension : Nat) (p q : DensePoly F) : DensePoly F :=
  let root := FiniteField.rootOfUnity F dimension
  let values := Array.zipWith (· * ·) (transform dimension root p.coefficients)
    (transform dimension root q.coefficients)
  .ofCoefficients (inverseTransform dimension root values)

/-- The product of two polynomials. -/
def multiply (p q : DensePoly F) : DensePoly F :=
  if p.isZero || q.isZero then 0
  else if min p.length q.length < transformThreshold then schoolbookMul p q
  else
    let dimension := ceilLog2 (p.length + q.length - 1)
    if dimension ≤ FiniteField.twoAdicity F then transformMul dimension p q
    else schoolbookMul p q

/-- A polynomial with `length` random coefficients, some of which may vanish. -/
def random? [Drawable F] {S : Type} [RandomSource S] (length : Nat) (source : S) :
    Except Fault (DensePoly F × S) :=
  (drawMany? (FiniteField.width F) Drawable.draw length source).map
    fun (coefficients, source) => (.ofCoefficients coefficients.toArray, source)

end DensePoly
end OracleProofs

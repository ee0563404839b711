/-
# Cosets of two-adic subgroups

The points `shift * ω ^ i`, where `ω` generates the subgroup of units of order
`2 ^ dimension`. The order of the points is fixed by the index `i` and every
word over a coset is listed in it. A coset carries its dimension and its shift
together with the two facts that make it one: the field has such a subgroup, and
the shift is a unit.
-/

import OracleProofs.Binary.Word
import OracleProofs.Error
import OracleProofs.Polynomial.Product
import OracleProofs.Polynomial.Vanishing

namespace OracleProofs

/-- The coset `shift * ⟨ω⟩` of the subgroup of order `2 ^ dimension`. -/
structure Coset (F : Type) [FiniteField F] where
  dimension : Nat
  shift : F
  dimension_le : dimension ≤ FiniteField.twoAdicity F
  shift_ne_zero : shift ≠ 0

namespace Coset

variable {F : Type} [FiniteField F]

/-- The coset of the given size and shift. The size is looked at first, then the
shift, then whether the field has such a subgroup. -/
def ofSize? (size : Nat) (shift : F) : Except DomainError (Coset F) :=
  match exactLog2 size with
  | none => .error (.invalidSize size)
  | some dimension =>
      if nonzero : shift ≠ 0 then
        if supported : dimension ≤ FiniteField.twoAdicity F then
          .ok ⟨dimension, shift, supported, nonzero⟩
        else .error (.unsupportedSize size)
      else .error .zeroShift

/-- The subgroup of the given size. -/
def subgroup? (size : Nat) : Except DomainError (Coset F) :=
  ofSize? size 1

/-- The number of points. -/
def size (coset : Coset F) : Nat := 1 <<< coset.dimension

/-- The generator of the subgroup. -/
def generator (coset : Coset F) : F :=
  FiniteField.rootOfUnity F coset.dimension

/-- The point at an index. Indices that differ by the size give the same point. -/
def element (coset : Coset F) (index : Nat) : F :=
  coset.shift * power coset.generator index

/-- All points in order. -/
def elements (coset : Coset F) : Array F :=
  geometric coset.generator coset.size coset.shift

/-- The common value of `x ^ size` at all points. -/
def shiftPower (coset : Coset F) : F :=
  power coset.shift coset.size

/-- The polynomial that vanishes exactly on the coset. -/
def vanishing (coset : Coset F) : VanishingPolynomial F :=
  .powerMinus coset.size coset.shiftPower

/-- The values at all points of the polynomial with the given coefficients. A
polynomial with more coefficients than points is first reduced, which changes
no value. -/
def evaluateAll (coset : Coset F) (coefficients : Array F) : Array F :=
  let reduced :=
    if coefficients.size ≤ coset.size then coefficients
    else wrapAround coset.size coset.shiftPower coefficients
  transform coset.dimension coset.generator (stretch coset.shift reduced)

/-- The coefficients, as many as there are points, of the polynomial with the
given values. -/
def interpolate (coset : Coset F) (values : Array F) : Array F :=
  stretch coset.shift⁻¹ (inverseTransform coset.dimension coset.generator values)

/-- Interpolation of a word, which must have one value for each point. -/
def interpolate? (coset : Coset F) (values : Array F) : Except DomainError (Array F) :=
  if values.size = coset.size then .ok (coset.interpolate values)
  else .error (.evaluationCount coset.size values.size)

/-- The position that comes at `index` when the points are listed subset by
subset: first those of the subgroup coset with `2 ^ subset` points and the same
shift, then its multiples by the powers of the generator. -/
def regroup (coset : Coset F) (subset index : Nat) : Nat :=
  (index % (1 <<< subset)) <<< (coset.dimension - subset) + index >>> subset

/-- The same, for a subset that must not be larger than the coset. -/
def regroup? (coset : Coset F) (subset index : Nat) : Except Fault Nat :=
  if subset ≤ coset.dimension then .ok (coset.regroup subset index)
  else .error (.subsetTooLarge subset coset.dimension)

/-- The coset with the same shift and `2 ^ dimension` points. -/
def subset? (coset : Coset F) (dimension : Nat) : Except DomainError (Coset F) :=
  if dimension < wordBits then ofSize? (1 <<< dimension) coset.shift
  else .error (.fault .overflow)

/-- The image of the coset under `x ↦ x ^ 2 ^ exponent`. -/
def power? (coset : Coset F) (exponent : Nat) : Except DomainError (Coset F) :=
  if exponent < wordBits then
    ofSize? (coset.size >>> exponent) (power coset.shift (1 <<< exponent))
  else .error (.fault .overflow)

/-- The sum of a polynomial over all points. The polynomial is evaluated on a
coset that is large enough for all its coefficients and contains this one, and
the values on this one are picked from there. -/
def sum? (coset : Coset F) (p : DensePoly F) : Except DomainError F :=
  let dimension := max (ceilLog2 p.length) coset.dimension
  (ofSize? (1 <<< dimension) coset.shift).map fun extended =>
    let values := extended.evaluateAll p.coefficients
    FiniteField.sumRange coset.size fun index =>
      values.getD (extended.regroup coset.dimension index) 0

end Coset
end OracleProofs

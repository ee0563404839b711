/-
# The combined codeword

For a repetition with batching challenge `ρ` let `f = ρ * Σ pᵢ * sᵢ + γ`, where
`γ` blinds the sum, and let `f = Z * h + r` with the polynomial `Z` that
vanishes on `H`. The sum of `f` over `H` is `|H| * r(0)`, so it has the claimed
value exactly if `g = (f - Z * h - mean) / x` is a polynomial, where `mean` is
the claimed sum over `|H|`. Both `h` and `g` have to be of low degree, each
below a bound of its own; each therefore enters the combined codeword twice, as
it is and multiplied by the power of `x` that lifts its bound to `D`.
-/

import OracleProofs.Sumcheck.Proof
import OracleProofs.Sumcheck.Parameters

namespace OracleProofs
namespace Sumcheck

variable {F : Type} [FiniteField F]

/-- What the combined codeword needs to know of a point `x`. -/
structure PointFactors (F : Type) where
  /-- `1 / x`. -/
  inverse : F
  /-- `x ^ |H|`. -/
  summationPower : F
  /-- The value of the polynomial that vanishes on `H`. -/
  vanishing : F
  /-- `x ^ (D - |H| + 1)`. -/
  degreeShift : F

namespace PointFactors

/-- The factors at the point of a position. -/
def ofPosition (parameters : Parameters F) (position : Nat) : PointFactors F :=
  let x := parameters.point position
  { inverse := x⁻¹
    summationPower := power x parameters.summation.size
    vanishing := parameters.vanishing.evaluate x
    degreeShift := power x (parameters.degreeBound - parameters.summation.size + 1) }

end PointFactors

/-- How one repetition combines the words that enter it. -/
structure CombinationRule (F : Type) where
  batching : F
  combination : Combination F
  /-- The claimed sum of `f` over the number of points. -/
  mean : F

namespace CombinationRule

/-- The rule for a claimed target and a claimed sum of the blinding polynomial. -/
def new (parameters : Parameters F) (batching : F) (combination : Combination F)
    (target blindingSum : F) : CombinationRule F :=
  { batching
    combination
    mean := (batching * target + blindingSum) * parameters.sizeInverse }

/-- The value of the combined codeword at a point, from the value of the inner
product, of the blinding polynomial and of the quotient there. -/
def evaluate (rule : CombinationRule F) (point : PointFactors F) (inner blinding quotient : F) :
    F :=
  let combined := rule.batching * inner + blinding
  let reduced := (combined - point.vanishing * quotient - rule.mean) * point.inverse
  rule.combination.quotient * quotient
    + rule.combination.shiftedQuotient * point.summationPower * quotient
    + rule.combination.reduced * reduced
    + rule.combination.shiftedReduced * point.degreeShift * reduced

end CombinationRule

/-- The matrix whose columns are the blocks of `cosetSize` neighbours of all
words, one word below the other. -/
def cosetMatrix (words : List (Array F)) (cosetSize : Nat) : Array (Array F) :=
  (words.flatMap fun word =>
    (List.range cosetSize).map fun offset =>
      Array.ofFn fun block : Fin ((word.size - offset + cosetSize - 1) / cosetSize) =>
        word.getD (block * cosetSize + offset) 0).toArray

end Sumcheck
end OracleProofs

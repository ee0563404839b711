/-
# What a false claim changes

A claimed target and a claimed sum of the blinding polynomial enter the combined
codeword through their mean alone. If the mean is wrong, every value is wrong by
a multiple of `a₂ / x + a₃ * x ^ (D - |H|)`. On one leaf all points have the same
power `y`, so there these are powers of `x` below the size of the leaf, with
powers of `y` as coefficients, and folding replaces the powers of `x` by those of
the challenge.
-/

import Mathlib
import OracleProofs.Proofs.Sumcheck.Instance
import OracleProofs.Proofs.Sumcheck.Layout

namespace OracleProofs
namespace Sumcheck

open Polynomial

variable {F : Type} [FiniteField F]

/-- What claimed sums that are wrong by `targetError` and `blindingError` take from the
value to which the leaf of a position is folded, times the number of points of the
summation domain. -/
def foldedError (parameters : Parameters F) (own : RepetitionChallenges F)
    (targetError blindingError : F) (position : ℕ) : F :=
  let challenge := own.folding.headD 0
  let size := parameters.cosetSize
  let exponent := parameters.degreeBound - parameters.summation.size
  let image := parameters.fri.pointOfLeaf (parameters.fri.leafOf 0 position)
  (own.batching * targetError + blindingError) *
    (own.combination.reduced * power challenge (size - 1) * image⁻¹ +
      own.combination.shiftedReduced * power challenge (exponent % size) *
        power image (exponent / size))

variable [LawfulField F]

/-- By this the values of a leaf that folds to `image` change if the claimed mean is
wrong by one. -/
noncomputable def leafDefect (parameters : Parameters F) (combination : Combination F)
    (image : F) : F[X] :=
  let exponent := parameters.degreeBound - parameters.summation.size
  C (combination.reduced * image⁻¹) * X ^ (parameters.cosetSize - 1) +
    C (combination.shiftedReduced * image ^ (exponent / parameters.cosetSize)) *
      X ^ (exponent % parameters.cosetSize)

@[simp]
theorem foldedError_zero (parameters : Parameters F) (own : RepetitionChallenges F)
    (position : ℕ) : foldedError parameters own 0 0 position = 0 := by
  simp [foldedError]

/-- All points of a leaf have the same power. -/
theorem Parameters.WellFormed.point_pow {parameters : Parameters F} (wf : parameters.WellFormed)
    (leaf : ℕ) {offset : ℕ} (inside : offset < parameters.cosetSize) :
    parameters.point (leaf * parameters.cosetSize + offset) ^ parameters.cosetSize =
      parameters.fri.pointOfLeaf leaf := by
  obtain ⟨round, rest, next, hrounds, hdomain, hsize, hfolds, hrest⟩ := wf.fri.exists_first
  have hcoset : parameters.cosetSize = round.cosetSize := hsize
  have hpoint : parameters.point = round.domain.point := by
    funext position
    rw [point, codewordDomain, hdomain]
    rfl
  rw [hcoset] at inside
  rw [hcoset, hpoint, hfolds.point_pow leaf inside,
    Fri.Parameters.pointOfLeaf_eq hrounds hrest]

theorem inv_eq_of_pow_eq {x image : F} (nonzero : x ≠ 0) {exponent : ℕ} (positive : 0 < exponent)
    (power : x ^ exponent = image) : x⁻¹ = image⁻¹ * x ^ (exponent - 1) := by
  rw [← power, eq_inv_mul_iff_mul_eq₀ (pow_ne_zero _ nonzero), ← div_eq_mul_inv,
    div_eq_iff nonzero, ← pow_succ, Nat.sub_add_cancel positive]

theorem eval_leafDefect {parameters : Parameters F} (wf : parameters.WellFormed)
    (combination : Combination F) {x image : F} (nonzero : x ≠ 0)
    (power : x ^ parameters.cosetSize = image) :
    (leafDefect parameters combination image).eval x =
      combination.reduced * x⁻¹ +
        combination.shiftedReduced * x ^ (parameters.degreeBound - parameters.summation.size) := by
  have hsplit := Nat.div_add_mod (parameters.degreeBound - parameters.summation.size)
    parameters.cosetSize
  have hpower : image ^ ((parameters.degreeBound - parameters.summation.size) /
        parameters.cosetSize) *
      x ^ ((parameters.degreeBound - parameters.summation.size) % parameters.cosetSize) =
        x ^ (parameters.degreeBound - parameters.summation.size) := by
    rw [← power, ← pow_mul, ← pow_add, hsplit]
  simp only [leafDefect, eval_add, eval_mul, eval_C, eval_pow, eval_X, mul_assoc, hpower]
  rw [inv_eq_of_pow_eq nonzero wf.cosetSize_pos power]

theorem foldSlices_leafDefect {parameters : Parameters F} (wf : parameters.WellFormed)
    (combination : Combination F) (challenge image : F) :
    foldSlices parameters.cosetSize challenge (leafDefect parameters combination image) =
      C (combination.reduced * challenge ^ (parameters.cosetSize - 1) * image⁻¹ +
        combination.shiftedReduced *
          challenge ^ ((parameters.degreeBound - parameters.summation.size) %
            parameters.cosetSize) *
          image ^ ((parameters.degreeBound - parameters.summation.size) /
            parameters.cosetSize)) := by
  have hpositive := wf.cosetSize_pos
  simp only [leafDefect]
  rw [foldSlices_add hpositive, foldSlices_C_mul hpositive, foldSlices_C_mul hpositive,
    foldSlices_X_pow (Nat.sub_one_lt hpositive.ne'),
    foldSlices_X_pow (Nat.mod_lt _ hpositive)]
  simp only [← C_mul, ← C_add]
  congr 1
  ring

namespace Instance

variable (given : Instance F) (parameters : Parameters F)

/-- By this the mean is wrong that a repetition computes from claimed sums. -/
noncomputable def meanError (own : RepetitionChallenges F) (target blindingSum : F) : F :=
  (own.batching * (target - given.target parameters) +
    (blindingSum - given.blindingSum parameters)) * parameters.sizeInverse

/-- The polynomial whose values the verifier computes on a leaf from claimed sums. -/
noncomputable def claimed (own : RepetitionChallenges F) (target blindingSum : F) (leaf : ℕ) :
    F[X] :=
  given.combined parameters own - C (given.meanError parameters own target blindingSum) *
    leafDefect parameters own.combination (parameters.fri.pointOfLeaf leaf)

variable {parameters}

/-- The rule for claimed sums gives values that are wrong by multiples of the error of the
mean. -/
theorem evaluate_new (wf : parameters.WellFormed) (own : RepetitionChallenges F)
    (target blindingSum : F) {position : ℕ} (inside : position < parameters.codewordDomain.size) :
    (CombinationRule.new parameters own.batching own.combination target blindingSum).evaluate
        (PointFactors.ofPosition parameters position)
        (given.inner.eval (parameters.point position))
        (given.blinding.toPolynomial.eval (parameters.point position))
        ((given.quotient parameters own.batching).eval (parameters.point position)) =
      (given.combined parameters own).eval (parameters.point position) -
        given.meanError parameters own target blindingSum *
          (own.combination.reduced * (parameters.point position)⁻¹ +
            own.combination.shiftedReduced * parameters.point position ^
              (parameters.degreeBound - parameters.summation.size)) := by
  have hnonzero : parameters.point position ≠ 0 := parameters.codewordDomain.point_ne_zero _
  -- the two rules differ in the mean only, which enters the reduced polynomial
  have hshift : parameters.point position ^
      (parameters.degreeBound - parameters.summation.size + 1) * (parameters.point position)⁻¹ =
        parameters.point position ^ (parameters.degreeBound - parameters.summation.size) := by
    rw [pow_succ, mul_inv_cancel_right₀ hnonzero]
  rw [← given.evaluate_rule wf own inside, ← hshift]
  simp only [CombinationRule.evaluate, CombinationRule.new, rule, meanError,
    PointFactors.ofPosition, power_eq_pow]
  ring

/-- The rule for claimed sums gives the values of the claimed polynomial. -/
theorem evaluate_claimed (wf : parameters.WellFormed) (own : RepetitionChallenges F)
    (target blindingSum : F) {leaf offset : ℕ} (hleaf : leaf < 2 ^ parameters.treeDepth)
    (hoffset : offset < parameters.cosetSize) {position : ℕ}
    (hposition : position = leaf * parameters.cosetSize + offset) :
    (CombinationRule.new parameters own.batching own.combination target blindingSum).evaluate
        (PointFactors.ofPosition parameters position)
        (given.inner.eval (parameters.point position))
        (given.blinding.toPolynomial.eval (parameters.point position))
        ((given.quotient parameters own.batching).eval (parameters.point position)) =
      (given.claimed parameters own target blindingSum leaf).eval (parameters.point position) := by
  have hpower : parameters.point position ^ parameters.cosetSize =
      parameters.fri.pointOfLeaf leaf := hposition ▸ wf.point_pow leaf hoffset
  have hnonzero : parameters.point position ≠ 0 := parameters.codewordDomain.point_ne_zero _
  rw [given.evaluate_new wf own _ _ (hposition ▸ wf.position_lt hleaf hoffset), claimed, eval_sub,
    eval_mul, eval_C, eval_leafDefect wf _ hnonzero hpower]

/-- A leaf of the claimed polynomial folds to a value that is wrong by the error. -/
theorem foldedValue_claimed (wf : parameters.WellFormed) (own : RepetitionChallenges F)
    (target blindingSum : F) (position : ℕ) :
    parameters.fri.foldedValue own.folding
        (given.claimed parameters own target blindingSum (parameters.fri.leafOf 0 position))
        position =
      parameters.fri.foldedValue own.folding (given.combined parameters own) position -
        foldedError parameters own (target - given.target parameters)
          (blindingSum - given.blindingSum parameters) position * parameters.sizeInverse := by
  have hpositive := wf.cosetSize_pos
  have hsize : parameters.fri.initialCosetSize = parameters.cosetSize := rfl
  rw [Fri.Parameters.foldedValue, Fri.Parameters.foldedValue, hsize, claimed,
    foldSlices_sub hpositive, foldSlices_C_mul hpositive, foldSlices_leafDefect wf, ← C_mul,
    eval_sub, eval_C]
  simp only [meanError, foldedError, power_eq_pow]
  ring

/-- It folds to the right value exactly if the error vanishes. -/
theorem foldedValue_claimed_eq_iff (wf : parameters.WellFormed) (own : RepetitionChallenges F)
    (target blindingSum : F) (position : ℕ) :
    parameters.fri.foldedValue own.folding
        (given.claimed parameters own target blindingSum (parameters.fri.leafOf 0 position))
        position =
      parameters.fri.foldedValue own.folding (given.combined parameters own) position ↔
      foldedError parameters own (target - given.target parameters)
        (blindingSum - given.blindingSum parameters) position = 0 := by
  rw [given.foldedValue_claimed wf, sub_eq_self, mul_eq_zero,
    or_iff_left wf.sizeInverse_ne_zero]

end Instance

end Sumcheck
end OracleProofs

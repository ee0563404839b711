/-
# When the combined codeword is of low degree

Claimed sums with the mean wrong by `ε` take `ε * (a₂ / x + a₃ * x ^ (D - |H|))` from the
combined codeword. The second part stays below the degree bound. On the points the inverse
of the variable is a multiple of its power `|L| - 1`, so the first part has the highest
degree that a word of that length can have. With the quotient of an honest prover the
word is therefore of low degree exactly if that part vanishes or the bound allows it.
-/

import Mathlib
import OracleProofs.Proofs.Sumcheck.Claim
import OracleProofs.Proofs.Sumcheck.Completeness

namespace OracleProofs
namespace Sumcheck

open Polynomial

variable {F : Type} [FiniteField F] [LawfulField F]

namespace Instance

variable (given : Instance F) (parameters : Parameters F)

/-- What stays below the degree bound of the combined polynomial for claimed sums. -/
noncomputable def claimedLow (own : RepetitionChallenges F) (target blindingSum : F) : F[X] :=
  given.combined parameters own -
    C (given.meanError parameters own target blindingSum * own.combination.shiftedReduced) *
      X ^ (parameters.degreeBound - parameters.summation.size)

/-- What claimed sums leave of a division by the variable, on the points. -/
noncomputable def claimedHigh (own : RepetitionChallenges F) (target blindingSum : F) : F[X] :=
  C (given.meanError parameters own target blindingSum * own.combination.reduced *
      parameters.codewordDomain.shiftPower⁻¹) * X ^ (parameters.codewordDomain.size - 1)

variable {parameters}

/-- The combined word for claimed sums, with the quotient that belongs to the true ones. -/
theorem combinedWord_claimed (wf : parameters.WellFormed) (own : RepetitionChallenges F)
    (target blindingSum : F) :
    combinedWord parameters (.new parameters own.batching own.combination target blindingSum)
        given.inner given.blinding.toPolynomial
        (parameters.codewordDomain.wordOf (given.quotient parameters own.batching)) =
      parameters.codewordDomain.wordOf (given.claimedLow parameters own target blindingSum -
        given.claimedHigh parameters own target blindingSum) := by
  symm
  rw [combinedWord_eq_wordOf_iff]
  intro position inside
  have hinverse : (parameters.point position)⁻¹ = parameters.codewordDomain.shiftPower⁻¹ *
      parameters.point position ^ (parameters.codewordDomain.size - 1) :=
    inv_eq_of_pow_eq (parameters.codewordDomain.point_ne_zero position)
      parameters.codewordDomain.size_pos (parameters.codewordDomain.element_pow_size _)
  rw [parameters.getD_wordOf _ inside, given.evaluate_new wf own target blindingSum inside,
    hinverse]
  simp only [claimedLow, claimedHigh, eval_sub, eval_mul, eval_C, eval_pow, eval_X]
  ring

theorem degree_claimedHigh_lt_iff (wf : parameters.WellFormed) (own : RepetitionChallenges F)
    (target blindingSum : F) {bound : ℕ} :
    (given.claimedHigh parameters own target blindingSum).degree < bound ↔
      own.combination.reduced * (own.batching * (target - given.target parameters) +
          (blindingSum - given.blindingSum parameters)) = 0 ∨
        parameters.codewordDomain.size - 1 < bound := by
  have hshift : parameters.codewordDomain.shiftPower⁻¹ ≠ 0 :=
    inv_ne_zero parameters.codewordDomain.shiftPower_ne_zero
  have hfactor : given.meanError parameters own target blindingSum * own.combination.reduced *
      parameters.codewordDomain.shiftPower⁻¹ = 0 ↔
        own.combination.reduced * (own.batching * (target - given.target parameters) +
          (blindingSum - given.blindingSum parameters)) = 0 := by
    rw [mul_eq_zero, or_iff_left hshift, meanError, mul_right_comm, mul_eq_zero,
      or_iff_left wf.sizeInverse_ne_zero, mul_comm]
  rw [claimedHigh, degree_C_mul_X_pow_lt_iff, hfactor]

variable {given}

theorem degree_claimedLow_lt (wf : parameters.WellFormed)
    (hgiven : given.WellFormed parameters.degreeBound) (own : RepetitionChallenges F)
    (target blindingSum : F) :
    (given.claimedLow parameters own target blindingSum).degree < parameters.degreeBound := by
  rw [claimedLow, degree_sub_lt_iff (degree_combined_lt wf hgiven own), degree_C_mul_X_pow_lt_iff]
  have hsmall := wf.summation_lt
  have hpositive := parameters.summation.size_pos
  exact .inr (by omega)

/-- The word for claimed sums is of low degree exactly if the claim is right as far as the
combination looks at it, or every word is. -/
theorem isLowDegree_claimed_iff (wf : parameters.WellFormed)
    (hgiven : given.WellFormed parameters.degreeBound) (own : RepetitionChallenges F)
    (target blindingSum : F) :
    parameters.codewordDomain.IsLowDegree parameters.degreeBound
        (parameters.codewordDomain.wordOf (given.claimedLow parameters own target blindingSum -
          given.claimedHigh parameters own target blindingSum)) ↔
      own.combination.reduced * (own.batching * (target - given.target parameters) +
          (blindingSum - given.blindingSum parameters)) = 0 ∨
        parameters.degreeBound = parameters.codewordDomain.size := by
  have hpositive := parameters.codewordDomain.size_pos
  have hfits : parameters.degreeBound ≤ parameters.codewordDomain.size := wf.fri.degreeBound_le
  have hlow := degree_claimedLow_lt wf hgiven own target blindingSum
  have hshort : (given.claimedLow parameters own target blindingSum -
      given.claimedHigh parameters own target blindingSum).degree <
        parameters.codewordDomain.size := by
    rw [degree_sub_lt_iff (hlow.trans_le (by exact_mod_cast hfits)),
      given.degree_claimedHigh_lt_iff wf]
    exact .inr (Nat.sub_one_lt hpositive.ne')
  -- the bound never exceeds the length, so only a bound of that length reaches the last power
  have hlast : parameters.codewordDomain.size - 1 < parameters.degreeBound ↔
      parameters.degreeBound = parameters.codewordDomain.size := by
    omega
  rw [Coset.isLowDegree_wordOf_iff _ hshort hfits, degree_sub_lt_iff hlow,
    given.degree_claimedHigh_lt_iff wf, hlast]

end Instance

/-- For an accepted prover, the combined word of claimed sums, with the values and the quotient
that the prover computes, is of low degree exactly if the claim, batched, has the true sums,
the combination leaves out the reduced word, or the degree bound is the length of the
word. -/
theorem isLowDegree_combinedWord_iff {summationDomain codewordDomain : EvaluationDomain F}
    {degreeBound : ℕ} {localization : List ℕ} {repetitions : ℕ} {parameters : Parameters F}
    (accepted : Parameters.new? summationDomain codewordDomain degreeBound localization
      repetitions = .ok parameters)
    {publicPolys secretPolys : List (DensePoly F)} {blinding : DensePoly F} {prover : Prover F}
    (started : Prover.new? parameters publicPolys secretPolys blinding = .ok prover)
    (batching : F) (combination : Combination F) (target blindingSum : F) :
    parameters.codewordDomain.IsLowDegree degreeBound
        (prover.combinedWord
          (Array.ofFn fun position : Fin parameters.codewordLength =>
            PointFactors.ofPosition parameters position)
          prover.innerWord (.new parameters batching combination target blindingSum)
          (prover.quotientWord batching)) ↔
      combination.reduced *
          (batching * (target - ∑ a ∈ parameters.summation.points,
              ((publicPolys.zip secretPolys).map fun pair =>
                pair.1.toPolynomial.eval a * pair.2.toPolynomial.eval a).sum) +
            (blindingSum - ∑ a ∈ parameters.summation.points, blinding.toPolynomial.eval a)) = 0 ∨
        degreeBound = parameters.codewordLength := by
  obtain ⟨wf, -, -, rfl, -⟩ := Parameters.wellFormed_of_accepted accepted
  obtain ⟨hgiven, rfl⟩ := Prover.eq_initial_of_new? wf started
  let given : Instance F := ⟨publicPolys, secretPolys, blinding⟩
  let own : RepetitionChallenges F := ⟨batching, combination, []⟩
  have hword := given.combinedWord_claimed wf own target blindingSum
  rw [Prover.combinedWord_initial, Prover.quotientWord_initial, hword,
    Instance.isLowDegree_claimed_iff wf hgiven, Instance.target_eq]
  rfl

/-- A target that is wrong by one: taken up by the reduced word it makes the degree too large,
left out it changes nothing. -/
theorem not_isLowDegree_of_wrong_target :
    ∃ prover, Prover.new? Parameters.twoPoints Instance.linear.publicPolys
        Instance.linear.secretPolys Instance.linear.blinding = .ok prover ∧
      ∀ reduced, Parameters.twoPoints.codewordDomain.IsLowDegree 4
          (prover.combinedWord
            (Array.ofFn fun position : Fin Parameters.twoPoints.codewordLength =>
              PointFactors.ofPosition Parameters.twoPoints position)
            prover.innerWord (.new Parameters.twoPoints 3 ⟨1, 0, reduced, 1⟩ 23 10)
            (prover.quotientWord 3)) ↔ reduced = 0 := by
  have hwf := (Parameters.wellFormed_of_accepted Parameters.new?_twoPoints).1
  have hstarted := (Prover.new?_eq_ok_iff hwf).mpr ⟨Instance.wellFormed_linear, rfl⟩
  refine ⟨_, hstarted, fun reduced => ?_⟩
  have htarget := Instance.target_linear
  rw [Instance.target_eq] at htarget
  have hblinding : ∑ a ∈ Parameters.twoPoints.summation.points,
      Instance.linear.blinding.toPolynomial.eval a = 10 := by
    simp only [← DensePoly.evaluate_eq_eval]
    rw [Coset.sum_points]
    decide +kernel
  have herror : (3 * (23 - 22) + (10 - 10) : BabyBear) ≠ 0 := by decide +kernel
  have hlength : 4 ≠ Parameters.twoPoints.codewordLength := by decide
  rw [isLowDegree_combinedWord_iff Parameters.new?_twoPoints hstarted, htarget, hblinding,
    or_iff_left hlength, mul_eq_zero, or_iff_left herror]

end Sumcheck
end OracleProofs

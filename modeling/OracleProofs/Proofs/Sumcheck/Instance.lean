/-
# The polynomials of an honest run

The prover starts from pairs of a public and a secret polynomial and from a
polynomial that blinds their inner product. The quotient and the remainder of a
batched sum follow from those of the two summands, since division by the
vanishing polynomial is linear. The mean that the verifier expects is the
constant term of the remainder, so the combined codeword is a word of low degree
under every challenge.
-/

import Mathlib
import OracleProofs.Proofs.Polynomial.Product
import OracleProofs.Proofs.Polynomial.Vanishing
import OracleProofs.Proofs.Sumcheck.Combination
import OracleProofs.Sumcheck.Prover

namespace OracleProofs
namespace Sumcheck

open Polynomial

variable {F : Type} [FiniteField F]

/-- What a prover starts from. -/
structure Instance (F : Type) [FiniteField F] where
  publicPolys : List (DensePoly F)
  secretPolys : List (DensePoly F)
  blinding : DensePoly F

variable [LawfulField F]

/-- The sum of the products of pairs of polynomials. -/
noncomputable def innerPolynomial (pairs : List (DensePoly F × DensePoly F)) : F[X] :=
  (pairs.map fun pair => pair.1.toPolynomial * pair.2.toPolynomial).sum

theorem eval_innerPolynomial (pairs : List (DensePoly F × DensePoly F)) (a : F) :
    (innerPolynomial pairs).eval a =
      (pairs.map fun pair => pair.1.toPolynomial.eval a * pair.2.toPolynomial.eval a).sum := by
  rw [innerPolynomial, eval_listSum, List.map_map]
  simp only [Function.comp_def, eval_mul]

@[simp]
theorem toPolynomial_innerProduct (pairs : List (DensePoly F × DensePoly F)) :
    (Prover.innerProduct pairs).toPolynomial = innerPolynomial pairs := by
  have hfold (start : DensePoly F) :
      (pairs.foldl (fun sum pair => sum + pair.1.multiply pair.2) start).toPolynomial =
        start.toPolynomial + innerPolynomial pairs := by
    induction pairs generalizing start with
    | nil => simp [innerPolynomial]
    | cons pair rest ih =>
        rw [List.foldl_cons, ih]
        simp [innerPolynomial, add_assoc]
  exact (hfold 0).trans (by rw [DensePoly.toPolynomial_zero, zero_add])

omit [LawfulField F] in
theorem checkDegree_eq_ok_iff {degree bound : ℕ} :
    Prover.checkDegree degree bound = .ok () ↔ degree < bound := by
  rw [Prover.checkDegree]
  by_cases hle : bound ≤ degree
  · rw [if_pos hle]
    exact ⟨fun h => (nomatch h), fun hlt => absurd hle (not_le.mpr hlt)⟩
  · rw [if_neg hle]
    exact ⟨fun _ => not_le.mp hle, fun _ => rfl⟩

/-- A degree below a positive bound is checked in natural numbers, in which the zero
polynomial counts as a constant. -/
theorem checkDegree_toPolynomial_iff {bound : ℕ} (positive : 0 < bound) (p : DensePoly F) :
    Prover.checkDegree p.degree bound = .ok () ↔ p.toPolynomial.degree < bound := by
  rw [checkDegree_eq_ok_iff, p.degree_eq_natDegree]
  by_cases hzero : p.toPolynomial = 0
  · simp [hzero, positive]
  · exact natDegree_lt_iff_degree_lt hzero

/-- The pairs that are not refused are those with products below the bound. -/
theorem checkPairs_eq_ok_iff {bound : ℕ} {pairs : List (DensePoly F × DensePoly F)} :
    Prover.checkPairs bound pairs = .ok () ↔
      ∀ pair ∈ pairs, (pair.1.toPolynomial * pair.2.toPolynomial).degree < bound := by
  induction pairs with
  | nil => simp [Prover.checkPairs]
  | cons pair rest ih =>
      obtain ⟨p, s⟩ := pair
      rw [List.forall_mem_cons, Prover.checkPairs, ← ih]
      by_cases hnonzero : (!p.isZero && !s.isZero) = true
      · rw [if_pos hnonzero]
        rw [Bool.and_eq_true, Bool.not_eq_true', Bool.not_eq_true', ← Bool.not_eq_true,
          ← Bool.not_eq_true, DensePoly.isZero_iff, DensePoly.isZero_iff] at hnonzero
        have hfirst : Prover.checkDegree (p.degree + s.degree) bound = .ok () ↔
            (p.toPolynomial * s.toPolynomial).degree < bound := by
          rw [checkDegree_eq_ok_iff, p.degree_eq_natDegree, s.degree_eq_natDegree,
            ← natDegree_mul hnonzero.1 hnonzero.2,
            natDegree_lt_iff_degree_lt (mul_ne_zero hnonzero.1 hnonzero.2)]
        constructor
        · intro haccepted
          obtain ⟨_, hdegree, hrest⟩ := bind_eq_ok_iff.mp haccepted
          exact ⟨hfirst.mp hdegree, hrest⟩
        · rintro ⟨hdegree, hrest⟩
          exact bind_eq_ok_iff.mpr ⟨(), hfirst.mpr hdegree, hrest⟩
      · rw [if_neg hnonzero]
        have hproduct : p.toPolynomial * s.toPolynomial = 0 := by
          rw [Bool.and_eq_true, Bool.not_eq_true', Bool.not_eq_true', not_and_or,
            Bool.not_eq_false, Bool.not_eq_false, DensePoly.isZero_iff,
            DensePoly.isZero_iff] at hnonzero
          exact mul_eq_zero.mpr hnonzero
        simp [hproduct]

theorem degree_innerPolynomial_lt {bound : ℕ} {pairs : List (DensePoly F × DensePoly F)}
    (hpairs : ∀ pair ∈ pairs, (pair.1.toPolynomial * pair.2.toPolynomial).degree < bound) :
    (innerPolynomial pairs).degree < bound := by
  rw [← mem_degreeLT]
  apply list_sum_mem
  intro product hmem
  obtain ⟨pair, hpair, rfl⟩ := List.mem_map.mp hmem
  exact mem_degreeLT.mpr (hpairs pair hpair)

namespace Instance

/-- The public polynomials with the secret ones that they are multiplied with. -/
def pairs (given : Instance F) : List (DensePoly F × DensePoly F) :=
  given.publicPolys.zip given.secretPolys

/-- The inner product. -/
noncomputable def inner (given : Instance F) : F[X] :=
  innerPolynomial given.pairs

/-- What the prover checks. -/
structure WellFormed (given : Instance F) (bound : ℕ) : Prop where
  matched : given.publicPolys.length = given.secretPolys.length
  product_lt : ∀ pair ∈ given.pairs,
    (pair.1.toPolynomial * pair.2.toPolynomial).degree < bound
  blinding_lt : given.blinding.toPolynomial.degree < bound

theorem WellFormed.inner_lt {given : Instance F} {bound : ℕ} (hgiven : given.WellFormed bound) :
    given.inner.degree < bound :=
  degree_innerPolynomial_lt hgiven.product_lt

variable (given : Instance F) (parameters : Parameters F)

/-- The sum of the inner product over the summation domain. -/
noncomputable def target : F :=
  ∑ a ∈ parameters.summation.points, given.inner.eval a

theorem target_eq : given.target parameters = ∑ a ∈ parameters.summation.points,
    ((given.publicPolys.zip given.secretPolys).map fun pair =>
      pair.1.toPolynomial.eval a * pair.2.toPolynomial.eval a).sum :=
  Finset.sum_congr rfl fun a _ => eval_innerPolynomial _ a

/-- The sum of the blinding polynomial over the summation domain. -/
noncomputable def blindingSum : F :=
  ∑ a ∈ parameters.summation.points, given.blinding.toPolynomial.eval a

/-- The quotient that answers a batching challenge. -/
noncomputable def quotient (batching : F) : F[X] :=
  C batching *
      (parameters.vanishing.divide (Prover.innerProduct given.pairs)).quotient.toPolynomial +
    (parameters.vanishing.divide given.blinding).quotient.toPolynomial

/-- The remainder that belongs to the quotient. -/
noncomputable def remainder (batching : F) : F[X] :=
  C batching *
      (parameters.vanishing.divide (Prover.innerProduct given.pairs)).remainder.toPolynomial +
    (parameters.vanishing.divide given.blinding).remainder.toPolynomial

/-- The remainder without its constant term, divided by the variable. -/
noncomputable def reduced (batching : F) : F[X] :=
  (given.remainder parameters batching).divX

/-- The rule of a repetition for the sums that the polynomials have. -/
noncomputable def rule (challenges : RepetitionChallenges F) : CombinationRule F :=
  .new parameters challenges.batching challenges.combination (given.target parameters)
    (given.blindingSum parameters)

/-- The polynomial of the combined codeword of a repetition. -/
noncomputable def combined (challenges : RepetitionChallenges F) : F[X] :=
  combinedPolynomial parameters challenges.combination
    (given.quotient parameters challenges.batching) (given.reduced parameters challenges.batching)

/-- Quotients and remainders are batched like the dividends. -/
theorem batched_eq (batching : F) :
    C batching * given.inner + given.blinding.toPolynomial =
      parameters.summation.vanishingPolynomial * given.quotient parameters batching +
        given.remainder parameters batching := by
  obtain ⟨hinner, -⟩ := VanishingPolynomial.divide_powerMinus parameters.summation.size_pos
    parameters.summation.shiftPower (Prover.innerProduct given.pairs)
  obtain ⟨hblinding, -⟩ := VanishingPolynomial.divide_powerMinus parameters.summation.size_pos
    parameters.summation.shiftPower given.blinding
  rw [toPolynomial_innerProduct] at hinner
  rw [inner, hinner, hblinding, quotient, remainder, Parameters.vanishing, Coset.vanishing,
    Coset.vanishingPolynomial]
  ring

theorem degree_remainder_lt (batching : F) :
    (given.remainder parameters batching).degree < parameters.summation.size := by
  obtain ⟨-, hinner⟩ := VanishingPolynomial.divide_powerMinus parameters.summation.size_pos
    parameters.summation.shiftPower (Prover.innerProduct given.pairs)
  obtain ⟨-, hblinding⟩ := VanishingPolynomial.divide_powerMinus parameters.summation.size_pos
    parameters.summation.shiftPower given.blinding
  exact degree_add_lt (degree_C_mul_lt batching hinner) hblinding

theorem X_mul_reduced (batching : F) :
    X * given.reduced parameters batching + C ((given.remainder parameters batching).coeff 0) =
      given.remainder parameters batching :=
  X_mul_divX_add _

theorem degree_X_mul_reduced_lt (batching : F) :
    (X * given.reduced parameters batching : F[X]).degree < parameters.summation.size := by
  have hremainder := given.degree_remainder_lt parameters batching
  rw [degree_lt_iff_coeff_zero] at hremainder ⊢
  intro exponent hle
  have hpositive := parameters.summation.size_pos
  have hcoeff := congrArg (fun p => p.coeff exponent) (given.X_mul_reduced parameters batching)
  simpa [coeff_C, (hpositive.trans_le hle).ne', hremainder exponent hle] using hcoeff

theorem degree_reduced_lt (batching : F) :
    (given.reduced parameters batching).degree < (parameters.summation.size - 1 : ℕ) := by
  rw [← degree_X_pow_mul_lt_iff, pow_one]
  exact given.degree_X_mul_reduced_lt parameters batching

variable {parameters}

/-- The mean that the verifier expects is the constant term of the remainder. -/
theorem decomposition (wf : parameters.WellFormed) (challenges : RepetitionChallenges F) :
    C challenges.batching * given.inner + given.blinding.toPolynomial =
      parameters.summation.vanishingPolynomial * given.quotient parameters challenges.batching +
        C (given.rule parameters challenges).mean +
        X * given.reduced parameters challenges.batching := by
  have hbatched : C challenges.batching * given.inner + given.blinding.toPolynomial =
      parameters.summation.vanishingPolynomial * given.quotient parameters challenges.batching +
        C ((given.remainder parameters challenges.batching).coeff 0) +
        X * given.reduced parameters challenges.batching := by
    rw [given.batched_eq, add_assoc, add_comm (C _), X_mul_reduced]
  have hsum := sum_eval_of_decomposition parameters.summation hbatched
    (given.degree_X_mul_reduced_lt parameters challenges.batching)
  have hmean : (given.rule parameters challenges).mean =
      (given.remainder parameters challenges.batching).coeff 0 := by
    have hclaimed := wf.size_mul_mean
      (challenges.batching * given.target parameters + given.blindingSum parameters)
    apply mul_left_cancel₀ wf.size_ne_zero
    rw [← hsum]
    simp only [eval_add, eval_mul, eval_C, Finset.sum_add_distrib, ← Finset.mul_sum]
    exact hclaimed
  rw [hmean]
  exact hbatched

/-- The combined codeword of a repetition is the word of its polynomial. -/
theorem combinedWord_eq (wf : parameters.WellFormed) (challenges : RepetitionChallenges F) :
    combinedWord parameters (given.rule parameters challenges) given.inner
        given.blinding.toPolynomial
        (parameters.codewordDomain.wordOf (given.quotient parameters challenges.batching)) =
      parameters.codewordDomain.wordOf (given.combined parameters challenges) :=
  combinedWord_of_decomposition (given.decomposition wf challenges)

/-- The rule gives the values of the combined polynomial. -/
theorem evaluate_rule (wf : parameters.WellFormed) (own : RepetitionChallenges F)
    {position : ℕ} (inside : position < parameters.codewordDomain.size) :
    (given.rule parameters own).evaluate (PointFactors.ofPosition parameters position)
        (given.inner.eval (parameters.point position))
        (given.blinding.toPolynomial.eval (parameters.point position))
        ((given.quotient parameters own.batching).eval (parameters.point position)) =
      (given.combined parameters own).eval (parameters.point position) := by
  have hvalue := combinedWord_eq_wordOf_iff.mp (given.combinedWord_eq wf own).symm position inside
  rw [parameters.getD_wordOf _ inside] at hvalue
  exact hvalue.symm

variable {given}

theorem degree_quotient_lt (wf : parameters.WellFormed)
    (hgiven : given.WellFormed parameters.degreeBound) (batching : F) :
    (given.quotient parameters batching).degree <
      (parameters.degreeBound - parameters.summation.size : ℕ) := by
  rw [← degree_vanishingPolynomial_mul_lt_iff, eq_sub_of_add_eq
    (given.batched_eq parameters batching).symm]
  refine (degree_sub_le _ _).trans_lt (max_lt ?_ ?_)
  · exact degree_add_lt (degree_C_mul_lt batching hgiven.inner_lt) hgiven.blinding_lt
  · exact (given.degree_remainder_lt parameters batching).trans
      (by exact_mod_cast wf.summation_lt)

theorem degree_combined_lt (wf : parameters.WellFormed)
    (hgiven : given.WellFormed parameters.degreeBound) (challenges : RepetitionChallenges F) :
    (given.combined parameters challenges).degree < parameters.degreeBound :=
  degree_combinedPolynomial_lt wf _ (degree_quotient_lt wf hgiven _)
    (given.degree_reduced_lt parameters _)

end Instance
end Sumcheck
end OracleProofs

/-
# What the combined codeword proves

Divided by the vanishing polynomial, a polynomial leaves a remainder with fewer
coefficients than the summation domain has points, and the constant term of the
remainder is the mean of the values there. The combined codeword holds the
quotient and the remainder without its constant term, both twice: as they are and
shifted to the degree bound. It is of low degree for an honest quotient, and a
quotient for which it is of low degree under all four coefficients alone is honest
and proves the claimed sum.
-/

import Mathlib
import OracleProofs.Proofs.Sumcheck.Parameters
import OracleProofs.Sumcheck.Combination

namespace OracleProofs
namespace Sumcheck

open Polynomial

variable {F : Type} [FiniteField F] [LawfulField F]

section Degree

/-- Shifting the coefficients shifts the bound. -/
theorem degree_X_pow_mul_lt_iff {p : F[X]} {exponent bound : ℕ} :
    (X ^ exponent * p : F[X]).degree < bound ↔ p.degree < (bound - exponent : ℕ) := by
  rw [degree_lt_iff_coeff_zero, degree_lt_iff_coeff_zero]
  constructor
  · intro hshifted place hle
    rw [← coeff_X_pow_mul]
    exact hshifted _ (by omega)
  · intro hplain place hle
    rw [coeff_X_pow_mul']
    split
    · exact hplain _ (by omega)
    · rfl

theorem degree_C_mul_lt {p : F[X]} {bound : ℕ} (factor : F) (hdegree : p.degree < bound) :
    (C factor * p).degree < bound := by
  rw [← smul_eq_C_mul]
  exact (degree_smul_le factor p).trans_lt hdegree

theorem degree_add_lt {p q : F[X]} {bound : ℕ} (hp : p.degree < bound) (hq : q.degree < bound) :
    (p + q).degree < bound :=
  (degree_add_le p q).trans_lt (max_lt hp hq)

theorem degree_sub_lt_iff {p q : F[X]} {bound : ℕ} (hp : p.degree < bound) :
    (p - q).degree < bound ↔ q.degree < bound := by
  rw [← mem_degreeLT, ← mem_degreeLT]
  exact Submodule.sub_mem_iff_right _ (mem_degreeLT.mpr hp)

theorem degree_C_mul_X_pow_lt_iff {factor : F} {exponent bound : ℕ} :
    (C factor * X ^ exponent : F[X]).degree < bound ↔ factor = 0 ∨ exponent < bound := by
  by_cases hzero : factor = 0
  · simp [hzero]
  · rw [degree_C_mul_X_pow exponent hzero, Nat.cast_lt, or_iff_right hzero]

/-- A polynomial of low degree that stays so when its word is multiplied by a power
of the points has room for the power. -/
theorem degree_lt_of_shifted (domain : Coset F) {p shifted : F[X]} {exponent bound : ℕ}
    (room : bound + exponent ≤ domain.size) (hp : p.degree < bound)
    (hshifted : shifted.degree < bound)
    (agree : ∀ position < domain.size, shifted.eval (domain.point position) =
      domain.point position ^ exponent * p.eval (domain.point position)) :
    p.degree < (bound - exponent : ℕ) := by
  have hfits : p.degree < (domain.size - exponent : ℕ) :=
    hp.trans_le (by exact_mod_cast Nat.le_sub_of_add_le room)
  have hequal : shifted = X ^ exponent * p := by
    apply domain.eq_of_eval_point_eq
    · exact hshifted.trans_le (by exact_mod_cast (Nat.le_add_right _ _).trans room)
    · exact degree_X_pow_mul_lt_iff.mpr hfits
    · intro position hinside
      rw [agree position hinside, eval_mul, eval_pow, eval_X]
  rw [hequal] at hshifted
  exact degree_X_pow_mul_lt_iff.mp hshifted

/-- A multiple of the vanishing polynomial has as many coefficients more as there
are points. -/
theorem degree_vanishingPolynomial_mul_lt_iff {summation : Coset F} {p : F[X]} {bound : ℕ} :
    (summation.vanishingPolynomial * p).degree < bound ↔
      p.degree < (bound - summation.size : ℕ) := by
  rw [← degree_X_pow_mul_lt_iff, degree_mul, degree_mul, Coset.vanishingPolynomial,
    degree_X_pow_sub_C summation.size_pos, degree_X_pow]

end Degree

/-- The value of the combined codeword in terms of the point. -/
theorem CombinationRule.evaluate_ofPosition (parameters : Parameters F) (rule : CombinationRule F)
    (position : ℕ) (inner blinding quotient : F) :
    rule.evaluate (PointFactors.ofPosition parameters position) inner blinding quotient =
      let x := parameters.point position
      let reduced := (rule.batching * inner + blinding -
        parameters.summation.vanishingPolynomial.eval x * quotient - rule.mean) * x⁻¹
      rule.combination.quotient * quotient +
        rule.combination.shiftedQuotient * (x ^ parameters.summation.size * quotient) +
        rule.combination.reduced * reduced +
        rule.combination.shiftedReduced *
          (x ^ (parameters.degreeBound - parameters.summation.size + 1) * reduced) := by
  simp only [evaluate, PointFactors.ofPosition, power_eq_pow, Parameters.vanishing,
    Coset.evaluate_vanishing, mul_assoc]

/-- The word of the combined codeword for given polynomials and any word in the
place of the quotient. -/
noncomputable def combinedWord (parameters : Parameters F) (rule : CombinationRule F)
    (inner blinding : F[X]) (quotient : Array F) : Array F :=
  Array.ofFn fun position : Fin parameters.codewordLength =>
    rule.evaluate (PointFactors.ofPosition parameters position)
      (inner.eval (parameters.point position)) (blinding.eval (parameters.point position))
      (quotient.getD position 0)

theorem combinedWord_eq_wordOf_iff {parameters : Parameters F} {rule : CombinationRule F}
    {inner blinding : F[X]} {quotient : Array F} {p : F[X]} :
    parameters.codewordDomain.wordOf p = combinedWord parameters rule inner blinding quotient ↔
      ∀ position < parameters.codewordDomain.size, p.eval (parameters.point position) =
        rule.evaluate (PointFactors.ofPosition parameters position)
          (inner.eval (parameters.point position)) (blinding.eval (parameters.point position))
          (quotient.getD position 0) := by
  have hsize : (combinedWord parameters rule inner blinding quotient).size =
      parameters.codewordDomain.size := Array.size_ofFn
  rw [Coset.wordOf_eq_iff _ hsize]
  apply forall_congr'
  intro position
  apply forall_congr'
  intro hinside
  have hlength : position < parameters.codewordLength := hinside
  simp only [combinedWord, Array.getD_eq_getD_getElem?, Array.size_ofFn, hlength, getElem?_pos,
    Array.getElem_ofFn, Option.getD_some]
  exact Iff.rfl

/-- The combinations that take one of the four parts alone. -/
def Combination.units : List (Combination F) :=
  [⟨1, 0, 0, 0⟩, ⟨0, 1, 0, 0⟩, ⟨0, 0, 1, 0⟩, ⟨0, 0, 0, 1⟩]

/-- A polynomial that is, up to a multiple of the vanishing polynomial, a constant
and a remainder without constant term has the constant as its mean. -/
theorem sum_eval_of_decomposition (summation : Coset F) {p quotient reduced : F[X]} {mean : F}
    (decomposition : p = summation.vanishingPolynomial * quotient + C mean + X * reduced)
    (short : (X * reduced : F[X]).degree < summation.size) :
    ∑ a ∈ summation.points, p.eval a = summation.size * mean := by
  have hvalue : ∀ a ∈ summation.points, p.eval a = (C mean + X * reduced).eval a := by
    intro a hmem
    have hzero := (summation.eval_vanishingPolynomial_eq_zero_iff a).mpr hmem
    rw [decomposition, eval_add, eval_add, eval_mul, hzero, zero_mul, zero_add, ← eval_add]
  have hdegree : (C mean + X * reduced : F[X]).degree < summation.size := by
    apply degree_add_lt _ short
    exact degree_C_le.trans_lt (by exact_mod_cast summation.size_pos)
  rw [Finset.sum_congr rfl hvalue, summation.sum_eval_of_degree_lt hdegree]
  simp

/-- The polynomial of the combined codeword. -/
noncomputable def combinedPolynomial (parameters : Parameters F) (combination : Combination F)
    (quotient reduced : F[X]) : F[X] :=
  C combination.quotient * quotient +
    C combination.shiftedQuotient * (X ^ parameters.summation.size * quotient) +
    C combination.reduced * reduced +
    C combination.shiftedReduced *
      (X ^ (parameters.degreeBound - parameters.summation.size + 1) * reduced)

/-- The shift of the reduced part leaves it as many coefficients as it has. -/
theorem Parameters.WellFormed.degreeBound_sub_shift {parameters : Parameters F}
    (wf : parameters.WellFormed) :
    parameters.degreeBound - (parameters.degreeBound - parameters.summation.size + 1) =
      parameters.summation.size - 1 := by
  have hsmall := wf.summation_lt
  omega

/-- The four parts of an honest combined codeword are below the degree bound. -/
theorem degree_combinedPolynomial_lt {parameters : Parameters F} (wf : parameters.WellFormed)
    (combination : Combination F) {quotient reduced : F[X]}
    (hquotient : quotient.degree < (parameters.degreeBound - parameters.summation.size : ℕ))
    (hreduced : reduced.degree < (parameters.summation.size - 1 : ℕ)) :
    (combinedPolynomial parameters combination quotient reduced).degree <
      parameters.degreeBound := by
  have hsmall := wf.summation_lt
  have hplain : quotient.degree < parameters.degreeBound :=
    hquotient.trans_le (by exact_mod_cast Nat.sub_le _ _)
  have hreducedPlain : reduced.degree < parameters.degreeBound :=
    hreduced.trans_le (by exact_mod_cast (Nat.sub_le _ _).trans hsmall.le)
  have hshifted := degree_X_pow_mul_lt_iff.mpr hquotient
  have hshiftedReduced : (X ^ (parameters.degreeBound - parameters.summation.size + 1) *
      reduced : F[X]).degree < parameters.degreeBound := by
    rw [degree_X_pow_mul_lt_iff, wf.degreeBound_sub_shift]
    exact hreduced
  have hquotients := degree_add_lt (degree_C_mul_lt combination.quotient hplain)
    (degree_C_mul_lt combination.shiftedQuotient hshifted)
  exact degree_add_lt (degree_add_lt hquotients (degree_C_mul_lt combination.reduced hreducedPlain))
    (degree_C_mul_lt combination.shiftedReduced hshiftedReduced)

/-- The combined codeword of an honest quotient is the word of the combined
polynomial. -/
theorem combinedWord_of_decomposition {parameters : Parameters F} {rule : CombinationRule F}
    {inner blinding quotient reduced : F[X]}
    (decomposition : C rule.batching * inner + blinding =
      parameters.summation.vanishingPolynomial * quotient + C rule.mean + X * reduced) :
    combinedWord parameters rule inner blinding (parameters.codewordDomain.wordOf quotient) =
      parameters.codewordDomain.wordOf
        (combinedPolynomial parameters rule.combination quotient reduced) := by
  symm
  rw [combinedWord_eq_wordOf_iff]
  intro position hinside
  have hne : parameters.point position ≠ 0 := parameters.codewordDomain.point_ne_zero _
  have hvalue := congrArg (eval (parameters.point position)) decomposition
  simp only [eval_add, eval_mul, eval_C, eval_X] at hvalue
  have hreduced : (rule.batching * inner.eval (parameters.point position) +
        blinding.eval (parameters.point position) -
      parameters.summation.vanishingPolynomial.eval (parameters.point position) *
        quotient.eval (parameters.point position) - rule.mean) *
        (parameters.point position)⁻¹ = reduced.eval (parameters.point position) := by
    rw [hvalue, ← div_eq_mul_inv, div_eq_iff hne]
    ring
  rw [CombinationRule.evaluate_ofPosition, parameters.getD_wordOf quotient hinside]
  simp only [hreduced, combinedPolynomial, eval_add, eval_mul, eval_C, eval_pow, eval_X]

/-- The polynomials of the quotient and of the reduced word, with the degrees that
the four parts leave them. -/
private theorem exists_parts {parameters : Parameters F} (wf : parameters.WellFormed)
    (room : parameters.degreeBound + parameters.summation.size ≤ parameters.codewordDomain.size)
    (room' : 2 * parameters.degreeBound - parameters.summation.size + 1 ≤
      parameters.codewordDomain.size)
    {batching target blindingSum : F} {inner blinding : F[X]} {quotient : Array F}
    (lowDegree : ∀ combination ∈ Combination.units,
      parameters.codewordDomain.IsLowDegree parameters.degreeBound (combinedWord parameters
        (.new parameters batching combination target blindingSum) inner blinding quotient)) :
    ∃ p reduced : F[X],
      p.degree < (parameters.degreeBound - parameters.summation.size : ℕ) ∧
      reduced.degree < (parameters.summation.size - 1 : ℕ) ∧
      ∀ position < parameters.codewordDomain.size,
        p.eval (parameters.point position) = quotient.getD position 0 ∧
        reduced.eval (parameters.point position) =
          (batching * inner.eval (parameters.point position) +
              blinding.eval (parameters.point position) -
            parameters.summation.vanishingPolynomial.eval (parameters.point position) *
              quotient.getD position 0 -
            (batching * target + blindingSum) * parameters.sizeInverse) *
            (parameters.point position)⁻¹ := by
  have hpositive := parameters.summation.size_pos
  have hsmall := wf.summation_lt
  obtain ⟨p, hp, hpvalue⟩ := lowDegree ⟨1, 0, 0, 0⟩ (by simp [Combination.units])
  obtain ⟨shifted, hshifted, hshiftedValue⟩ := lowDegree ⟨0, 1, 0, 0⟩ (by simp [Combination.units])
  obtain ⟨reduced, hreduced, hreducedValue⟩ := lowDegree ⟨0, 0, 1, 0⟩ (by simp [Combination.units])
  obtain ⟨raised, hraised, hraisedValue⟩ := lowDegree ⟨0, 0, 0, 1⟩ (by simp [Combination.units])
  rw [combinedWord_eq_wordOf_iff] at hpvalue hshiftedValue hreducedValue hraisedValue
  simp only [CombinationRule.evaluate_ofPosition, CombinationRule.new, one_mul, zero_mul, add_zero,
    zero_add] at hpvalue hshiftedValue hreducedValue hraisedValue
  refine ⟨p, reduced, ?_, ?_, fun position hinside =>
    ⟨hpvalue position hinside, hreducedValue position hinside⟩⟩
  · apply degree_lt_of_shifted parameters.codewordDomain room hp hshifted
    intro position hinside
    exact (hshiftedValue position hinside).trans (by rw [← hpvalue position hinside]; rfl)
  · have hroom : parameters.degreeBound +
        (parameters.degreeBound - parameters.summation.size + 1) ≤
          parameters.codewordDomain.size := by omega
    rw [← wf.degreeBound_sub_shift]
    apply degree_lt_of_shifted parameters.codewordDomain hroom hreduced hraised
    intro position hinside
    exact (hraisedValue position hinside).trans (by rw [← hreducedValue position hinside]; rfl)

/-- The parts make up the batched polynomial, with which they agree at all points. -/
private theorem decomposition_of_parts {parameters : Parameters F} (wf : parameters.WellFormed)
    (room : parameters.degreeBound ≤ parameters.codewordDomain.size) {batching mean : F}
    {inner blinding p reduced : F[X]} (hinner : inner.degree < parameters.degreeBound)
    (hblinding : blinding.degree < parameters.degreeBound)
    (hp : p.degree < (parameters.degreeBound - parameters.summation.size : ℕ))
    (hremainder : (X * reduced : F[X]).degree < parameters.summation.size)
    (hvalues : ∀ position < parameters.codewordDomain.size,
      reduced.eval (parameters.point position) =
        (batching * inner.eval (parameters.point position) +
            blinding.eval (parameters.point position) -
          parameters.summation.vanishingPolynomial.eval (parameters.point position) *
            p.eval (parameters.point position) - mean) * (parameters.point position)⁻¹) :
    C batching * inner + blinding =
      parameters.summation.vanishingPolynomial * p + C mean + X * reduced := by
  have hfits {q : F[X]} (hq : q.degree < parameters.degreeBound) :
      q.degree < parameters.codewordDomain.size :=
    hq.trans_le (by exact_mod_cast room)
  apply parameters.codewordDomain.eq_of_eval_point_eq
  · exact hfits (degree_add_lt (degree_C_mul_lt batching hinner) hblinding)
  · apply hfits
    apply degree_add_lt (degree_add_lt _ _)
    · exact hremainder.trans (by exact_mod_cast wf.summation_lt)
    · exact degree_vanishingPolynomial_mul_lt_iff.mpr hp
    · exact degree_C_le.trans_lt (by exact_mod_cast wf.fri.degreeBound_pos)
  · intro position hinside
    have hne : parameters.point position ≠ 0 := parameters.codewordDomain.point_ne_zero _
    have hvalue := hvalues position hinside
    rw [← div_eq_mul_inv, eq_div_iff hne] at hvalue
    show eval (parameters.point position) _ = eval (parameters.point position) _
    simp only [eval_add, eval_mul, eval_C, eval_X]
    rw [mul_comm (parameters.point position), hvalue]
    ring

/-- If the combined codeword is of low degree under each of the four parts alone,
then the word in the place of the quotient is of low degree and the claimed sum is
right. Nothing else is assumed of that word. -/
theorem sum_eq_of_isLowDegree_units {summationDomain codewordDomain : EvaluationDomain F}
    {degreeBound : ℕ} {localization : List ℕ} {repetitions : ℕ} {parameters : Parameters F}
    (accepted : Parameters.new? summationDomain codewordDomain degreeBound localization
      repetitions = .ok parameters)
    (room : degreeBound + parameters.summation.size ≤ parameters.codewordDomain.size)
    (room' : 2 * degreeBound - parameters.summation.size + 1 ≤ parameters.codewordDomain.size)
    (batching target blindingSum : F) {inner blinding : F[X]}
    (hinner : inner.degree < degreeBound) (hblinding : blinding.degree < degreeBound)
    {quotient : Array F} (size : quotient.size = parameters.codewordDomain.size)
    (lowDegree : ∀ combination ∈ Combination.units,
      parameters.codewordDomain.IsLowDegree degreeBound (combinedWord parameters
        (.new parameters batching combination target blindingSum) inner blinding quotient)) :
    parameters.codewordDomain.IsLowDegree (degreeBound - parameters.summation.size) quotient ∧
      ∑ a ∈ parameters.summation.points, (batching * inner.eval a + blinding.eval a) =
        batching * target + blindingSum := by
  obtain ⟨wf, -, -, rfl, -⟩ := Parameters.wellFormed_of_accepted accepted
  obtain ⟨p, reduced, hp, hreduced, hvalues⟩ := exists_parts wf room room' lowDegree
  have hremainder : (X * reduced : F[X]).degree < parameters.summation.size := by
    rw [← pow_one X]
    exact degree_X_pow_mul_lt_iff.mpr hreduced
  have hidentity := decomposition_of_parts wf ((Nat.le_add_right _ _).trans room) hinner hblinding
    hp hremainder fun position hinside => by
      rw [(hvalues position hinside).1]
      exact (hvalues position hinside).2
  constructor
  · refine ⟨p, hp, (parameters.codewordDomain.wordOf_eq_iff size).mpr ?_⟩
    intro position hinside
    exact (hvalues position hinside).1
  · have hsum := sum_eval_of_decomposition parameters.summation hidentity hremainder
    rw [wf.size_mul_mean] at hsum
    simpa only [eval_add, eval_mul, eval_C] using hsum

/-- The sum of `X ^ 3 + X ^ 2 + 1` over the two points, with `X + 1` as the quotient. -/
theorem sum_eq_of_linear_quotient :
    Parameters.twoPoints.codewordDomain.IsLowDegree 2
        (Parameters.twoPoints.codewordDomain.wordOf (X + 1)) ∧
      ∑ a ∈ Parameters.twoPoints.summation.points,
        (1 * (X ^ 3 + X ^ 2 : BabyBear[X]).eval a + (1 : BabyBear[X]).eval a) = 1 * 2 + 2 := by
  have hinner : (X ^ 3 + X ^ 2 : BabyBear[X]).degree < (4 : ℕ) :=
    degree_add_lt ((degree_X_pow 3).trans_lt (by decide)) ((degree_X_pow 2).trans_lt (by decide))
  have hone : (1 : BabyBear[X]).degree < (4 : ℕ) := degree_one.trans_lt (by decide)
  have hmean : (1 * 2 + 2) * Parameters.twoPoints.sizeInverse = 2 := by decide +kernel
  have hshift : Parameters.twoPoints.summation.shiftPower = 1 := by decide +kernel
  have hvanishing : Parameters.twoPoints.summation.vanishingPolynomial = X ^ 2 - 1 := by
    rw [Coset.vanishingPolynomial, hshift, C_1]
    rfl
  have hdecomposition (combination : Combination BabyBear) :
      C (CombinationRule.new Parameters.twoPoints 1 combination 2 2).batching * (X ^ 3 + X ^ 2) +
          1 =
        Parameters.twoPoints.summation.vanishingPolynomial * (X + 1) +
          C (CombinationRule.new Parameters.twoPoints 1 combination 2 2).mean + X * 1 := by
    simp only [CombinationRule.new, hmean, hvanishing, C_1, C_ofNat]
    ring
  have hquotient : (X + 1 : BabyBear[X]).degree < (4 - 2 : ℕ) :=
    degree_add_lt (degree_X.trans_lt (by decide)) (degree_one.trans_lt (by decide))
  have hreduced : (1 : BabyBear[X]).degree < (2 - 1 : ℕ) := degree_one.trans_lt (by decide)
  refine sum_eq_of_isLowDegree_units Parameters.new?_twoPoints (by decide) (by decide) 1 2 2
    hinner hone (Coset.size_wordOf _ _) ?_
  intro combination _
  exact ⟨_, degree_combinedPolynomial_lt
    (Parameters.wellFormed_of_accepted Parameters.new?_twoPoints).1 combination hquotient hreduced,
    (combinedWord_of_decomposition (hdecomposition combination)).symm⟩

end Sumcheck
end OracleProofs

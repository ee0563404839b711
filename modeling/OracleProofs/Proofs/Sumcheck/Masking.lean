/-
# Masks outside the summation domain

A mask leaves the values of a secret polynomial on the summation domain as they are, and
what is left of an inner product after division by the vanishing polynomial as well. At
points outside the summation domain a masked polynomial takes any values: the mask is
interpolated there. In the same way a blinding polynomial takes over what two inner
products with the same sum leave differently, without a change to its own sum or to its
values at these points.
-/

import Mathlib
import OracleProofs.Proofs.Sumcheck.Instance

namespace OracleProofs
namespace Sumcheck
namespace Parameters

open Polynomial

variable {F : Type} [FiniteField F]

/-- Secret polynomials with their masks. -/
def maskAll (parameters : Parameters F) (secrets masks : List (DensePoly F)) :
    List (DensePoly F) :=
  List.zipWith parameters.vanishing.mask secrets masks

/-- What is left of the inner product after division by the vanishing polynomial. -/
def remainderOf (parameters : Parameters F) (pairs : List (DensePoly F × DensePoly F)) :
    DensePoly F :=
  (parameters.vanishing.divide (Prover.innerProduct pairs)).remainder

variable [LawfulField F] (parameters : Parameters F)

theorem toPolynomial_mask (secret mask : DensePoly F) :
    (parameters.vanishing.mask secret mask).toPolynomial =
      secret.toPolynomial + parameters.summation.vanishingPolynomial * mask.toPolynomial :=
  VanishingPolynomial.toPolynomial_mask_powerMinus parameters.summation.size_pos _ _ _

section Remainder

theorem toPolynomial_remainderOf (pairs : List (DensePoly F × DensePoly F)) :
    (parameters.remainderOf pairs).toPolynomial =
      innerPolynomial pairs %ₘ parameters.summation.vanishingPolynomial := by
  rw [← toPolynomial_innerProduct]
  exact VanishingPolynomial.remainder_divide_powerMinus parameters.summation.size_pos _ _

theorem degree_remainderOf_lt (pairs : List (DensePoly F × DensePoly F)) :
    (parameters.remainderOf pairs).toPolynomial.degree < parameters.summation.size :=
  (VanishingPolynomial.divide_powerMinus parameters.summation.size_pos _ _).2

theorem sum_eval_remainderOf (pairs : List (DensePoly F × DensePoly F)) :
    ∑ a ∈ parameters.summation.points, (parameters.remainderOf pairs).toPolynomial.eval a =
      ∑ a ∈ parameters.summation.points, (innerPolynomial pairs).eval a := by
  rw [toPolynomial_remainderOf, Coset.sum_eval_modByMonic]

private theorem exists_innerPolynomial_maskAll (publicPolys : List (DensePoly F))
    {secrets masks : List (DensePoly F)}
    (enough : (parameters.maskAll secrets masks).length = secrets.length) :
    ∃ multiple, innerPolynomial (publicPolys.zip (parameters.maskAll secrets masks)) =
      innerPolynomial (publicPolys.zip secrets) +
        parameters.summation.vanishingPolynomial * multiple := by
  induction publicPolys generalizing secrets masks with
  | nil => exact ⟨0, by simp [innerPolynomial]⟩
  | cons p publicPolys ih =>
      cases secrets with
      | nil => exact ⟨0, by simp [innerPolynomial, maskAll]⟩
      | cons secret secrets =>
          cases masks with
          | nil => exact absurd enough (Nat.zero_ne_add_one _)
          | cons mask masks =>
              obtain ⟨multiple, hrest⟩ := ih (Nat.succ_injective enough)
              refine ⟨p.toPolynomial * mask.toPolynomial + multiple, ?_⟩
              simp only [maskAll, innerPolynomial, List.zipWith_cons_cons, List.zip_cons_cons,
                List.map_cons, List.sum_cons, toPolynomial_mask] at hrest ⊢
              rw [hrest]
              ring

/-- Masks change the inner product by a multiple of the vanishing polynomial only. -/
theorem remainderOf_maskAll (publicPolys : List (DensePoly F))
    {secrets masks : List (DensePoly F)}
    (enough : (parameters.maskAll secrets masks).length = secrets.length) :
    parameters.remainderOf (publicPolys.zip (parameters.maskAll secrets masks)) =
      parameters.remainderOf (publicPolys.zip secrets) := by
  obtain ⟨multiple, hmasked⟩ := parameters.exists_innerPolynomial_maskAll publicPolys enough
  apply DensePoly.toPolynomial_injective
  rw [toPolynomial_remainderOf, toPolynomial_remainderOf, hmasked, add_modByMonic,
    self_mul_modByMonic (Coset.monic_vanishingPolynomial _), add_zero]

variable {parameters}

private theorem toPolynomial_remainderOf_of_zero {pairs : List (DensePoly F × DensePoly F)}
    (hpairs : ∀ pair ∈ pairs, pair.1.toPolynomial = 0) :
    (parameters.remainderOf pairs).toPolynomial = 0 := by
  have hinner : innerPolynomial pairs = 0 := by
    apply List.sum_eq_zero
    intro product hmem
    obtain ⟨pair, hpair, rfl⟩ := List.mem_map.mp hmem
    rw [hpairs pair hpair, zero_mul]
  rw [toPolynomial_remainderOf, hinner, zero_modByMonic]

/-- If inner products leave different remainders, then some public polynomial is not
zero. -/
theorem exists_ne_zero_of_remainderOf_ne {publicPolys secrets others : List (DensePoly F)}
    (hne : (parameters.remainderOf (publicPolys.zip secrets)).toPolynomial ≠
      (parameters.remainderOf (publicPolys.zip others)).toPolynomial) :
    ∃ p ∈ publicPolys, p.toPolynomial ≠ 0 := by
  by_contra hzero
  push Not at hzero
  apply hne
  rw [toPolynomial_remainderOf_of_zero fun pair hmem => hzero _ (List.of_mem_zip hmem).1,
    toPolynomial_remainderOf_of_zero fun pair hmem => hzero _ (List.of_mem_zip hmem).1]

end Remainder

/-- The positions are inside the words and their points outside the summation domain. -/
structure Outside (positions : Finset ℕ) : Prop where
  inside : ∀ position ∈ positions, position < parameters.codewordLength
  outside : ∀ position ∈ positions, parameters.point position ∉ parameters.summation.points

namespace Outside

variable {parameters} {positions : Finset ℕ}

/-- A multiple of the vanishing polynomial gives a polynomial any values at the
positions. -/
theorem exists_multiple (houtside : parameters.Outside positions) (p : F[X]) (value : ℕ → F) :
    ∃ multiple : F[X], multiple.degree < positions.card ∧ ∀ position ∈ positions,
      (p + parameters.summation.vanishingPolynomial * multiple).eval
        (parameters.point position) = value position := by
  refine (VanishingPolynomial.existsUnique_eval_add_mul_eq ?_ ?_ p value).exists
  · exact parameters.codewordDomain.point_injOn.mono fun _ hmem => houtside.inside _ hmem
  · intro position hmem
    rw [Ne, Coset.eval_vanishingPolynomial_eq_zero_iff]
    exact houtside.outside position hmem

private theorem degree_mul_masked_lt {summation : Coset F} {p secret mask : F[X]}
    {bound count : ℕ} (low : p.degree + secret.degree < bound)
    (room : p.degree + (summation.size + count : ℕ) ≤ bound) (hmask : mask.degree < count) :
    (p * (secret + summation.vanishingPolynomial * mask)).degree < bound := by
  rw [mul_add, mul_left_comm]
  refine degree_add_lt (by rwa [degree_mul]) ?_
  -- The zero polynomial has no degree that could be added to the others.
  by_cases hzero : p * mask = 0
  · rw [hzero, mul_zero, degree_zero]
    exact WithBot.bot_lt_coe _
  · obtain ⟨hp, hne⟩ := mul_ne_zero_iff.mp hzero
    rw [degree_vanishingPolynomial_mul_lt_iff, degree_mul, degree_eq_natDegree hp,
      degree_eq_natDegree hne]
    rw [degree_eq_natDegree hp] at room
    rw [degree_eq_natDegree hne] at hmask
    norm_cast at room hmask ⊢
    omega

/-- Polynomials can be masked so that they have the values of given ones at all positions
and no product becomes too large. -/
theorem exists_masks (houtside : parameters.Outside positions)
    {publicPolys targets others : List (DensePoly F)}
    (htargets : targets.length = publicPolys.length)
    (hothers : others.length = publicPolys.length)
    (low : ∀ pair ∈ publicPolys.zip others,
      pair.1.toPolynomial.degree + pair.2.toPolynomial.degree < parameters.degreeBound)
    (room : ∀ p ∈ publicPolys, p.toPolynomial.degree +
      (parameters.summation.size + positions.card : ℕ) ≤ parameters.degreeBound) :
    ∃ masks, (parameters.maskAll others masks).length = others.length ∧
      (∀ pair ∈ publicPolys.zip (parameters.maskAll others masks),
        (pair.1.toPolynomial * pair.2.toPolynomial).degree < parameters.degreeBound) ∧
      ∀ position ∈ positions,
        (parameters.maskAll others masks).map
            (fun s => s.toPolynomial.eval (parameters.point position)) =
          targets.map fun s => s.toPolynomial.eval (parameters.point position) := by
  induction publicPolys generalizing targets others with
  | nil =>
      rw [List.length_nil, List.length_eq_zero_iff] at htargets hothers
      subst htargets hothers
      exact ⟨[], rfl, by simp, by simp [maskAll]⟩
  | cons p publicPolys ih =>
      obtain ⟨target, targets, rfl⟩ := List.exists_cons_of_length_eq_add_one htargets
      obtain ⟨other, others, rfl⟩ := List.exists_cons_of_length_eq_add_one hothers
      rw [List.zip_cons_cons, List.forall_mem_cons] at low
      rw [List.forall_mem_cons] at room
      obtain ⟨masks, hlength, hproducts, hvalues⟩ := ih (Nat.succ_injective htargets)
        (Nat.succ_injective hothers) low.2 room.2
      obtain ⟨multiple, hdegree, hvalue⟩ := houtside.exists_multiple other.toPolynomial
        fun position => target.toPolynomial.eval (parameters.point position)
      obtain ⟨mask, rfl⟩ := DensePoly.toPolynomial_surjective multiple
      refine ⟨mask :: masks, congrArg Nat.succ hlength, ?_, ?_⟩
      · simp only [maskAll, List.zipWith_cons_cons, List.zip_cons_cons, List.forall_mem_cons,
          toPolynomial_mask]
        exact ⟨degree_mul_masked_lt low.1 room.1 hdegree, hproducts⟩
      · intro position hmem
        simp only [maskAll, List.zipWith_cons_cons, List.map_cons, toPolynomial_mask]
        rw [hvalue position hmem]
        exact congrArg _ (hvalues position hmem)

/-- A polynomial that vanishes at all positions leaves any remainder for which there is
room. -/
theorem exists_correction (houtside : parameters.Outside positions)
    (hsummation : parameters.summation.size < parameters.degreeBound) {remainder : F[X]}
    (hremainder : remainder.degree < parameters.summation.size)
    (room : remainder ≠ 0 →
      parameters.summation.size + positions.card ≤ parameters.degreeBound) :
    ∃ correction : F[X], correction.degree < parameters.degreeBound ∧
      correction %ₘ parameters.summation.vanishingPolynomial = remainder ∧
      ∀ position ∈ positions, correction.eval (parameters.point position) = 0 := by
  by_cases hzero : remainder = 0
  · exact ⟨0, by simp, by rw [zero_modByMonic, hzero], fun _ _ => eval_zero⟩
  · -- The remainder itself, made to vanish at the positions by a multiple.
    obtain ⟨multiple, hdegree, hvalue⟩ := houtside.exists_multiple remainder fun _ => 0
    have hmonic := parameters.summation.monic_vanishingPolynomial
    have hself : remainder %ₘ parameters.summation.vanishingPolynomial = remainder := by
      rw [modByMonic_eq_self_iff hmonic, Coset.vanishingPolynomial,
        degree_X_pow_sub_C parameters.summation.size_pos]
      exact hremainder
    refine ⟨_, degree_add_lt ?_ ?_, ?_, hvalue⟩
    · exact hremainder.trans (by exact_mod_cast hsummation)
    · rw [degree_vanishingPolynomial_mul_lt_iff]
      exact hdegree.trans_le (by exact_mod_cast Nat.le_sub_of_add_le' (room hzero))
    · rw [add_modByMonic, self_mul_modByMonic hmonic, add_zero, hself]

end Outside

/-- Other secrets that the values at the positions should not tell from the first ones:
the inner products have the same sum over the summation domain, and all products have room
for as many masks as there are positions. -/
structure Comparable (publicPolys secrets others : List (DensePoly F)) (positions : Finset ℕ) :
    Prop extends parameters.Outside positions where
  secrets_length : secrets.length = publicPolys.length
  others_length : others.length = publicPolys.length
  sum_eq :
    ∑ a ∈ parameters.summation.points, ((publicPolys.zip secrets).map fun pair =>
        pair.1.toPolynomial.eval a * pair.2.toPolynomial.eval a).sum =
      ∑ a ∈ parameters.summation.points, ((publicPolys.zip others).map fun pair =>
        pair.1.toPolynomial.eval a * pair.2.toPolynomial.eval a).sum
  low : ∀ pair ∈ publicPolys.zip others,
    pair.1.toPolynomial.degree + pair.2.toPolynomial.degree < parameters.degreeBound
  room : ∀ p ∈ publicPolys, p.toPolynomial.degree +
    (parameters.summation.size + positions.card : ℕ) ≤ parameters.degreeBound

variable {parameters}

namespace Comparable

variable {publicPolys secrets others : List (DensePoly F)} {positions : Finset ℕ}

theorem sum_remainderOf_eq
    (comparable : parameters.Comparable publicPolys secrets others positions) :
    ∑ a ∈ parameters.summation.points,
        (parameters.remainderOf (publicPolys.zip secrets)).toPolynomial.eval a =
      ∑ a ∈ parameters.summation.points,
        (parameters.remainderOf (publicPolys.zip others)).toPolynomial.eval a := by
  rw [sum_eval_remainderOf, sum_eval_remainderOf]
  simp only [eval_innerPolynomial]
  exact comparable.sum_eq

theorem size_add_card_le
    (comparable : parameters.Comparable publicPolys secrets others positions)
    (hne : (parameters.remainderOf (publicPolys.zip secrets)).toPolynomial ≠
      (parameters.remainderOf (publicPolys.zip others)).toPolynomial) :
    parameters.summation.size + positions.card ≤ parameters.degreeBound := by
  obtain ⟨p, hmem, hp⟩ := exists_ne_zero_of_remainderOf_ne hne
  have hroom := comparable.room p hmem
  rw [degree_eq_natDegree hp] at hroom
  norm_cast at hroom
  omega

/-- A blinding polynomial can take over any multiple of the difference between the two
remainders and keep its sum and its values at the positions. -/
theorem exists_blinding
    (comparable : parameters.Comparable publicPolys secrets others positions)
    (hsummation : parameters.summation.size < parameters.degreeBound) (factor : F)
    {blinding : DensePoly F} (hblinding : blinding.toPolynomial.degree < parameters.degreeBound) :
    ∃ other : DensePoly F, other.toPolynomial.degree < parameters.degreeBound ∧
      other.toPolynomial %ₘ parameters.summation.vanishingPolynomial =
        blinding.toPolynomial %ₘ parameters.summation.vanishingPolynomial +
          C factor * ((parameters.remainderOf (publicPolys.zip secrets)).toPolynomial -
            (parameters.remainderOf (publicPolys.zip others)).toPolynomial) ∧
      ∑ a ∈ parameters.summation.points, other.toPolynomial.eval a =
        ∑ a ∈ parameters.summation.points, blinding.toPolynomial.eval a ∧
      ∀ position ∈ positions, other.toPolynomial.eval (parameters.point position) =
        blinding.toPolynomial.eval (parameters.point position) := by
  have hdegree := (degree_sub_le _ _).trans_lt (max_lt
    (parameters.degree_remainderOf_lt (publicPolys.zip secrets))
    (parameters.degree_remainderOf_lt (publicPolys.zip others)))
  obtain ⟨correction, hcorrection, hremainder, hvanishes⟩ := comparable.exists_correction
    hsummation (degree_C_mul_lt factor hdegree) fun hne =>
      comparable.size_add_card_le (sub_ne_zero.mp (mul_ne_zero_iff.mp hne).2)
  have hsum : ∑ a ∈ parameters.summation.points, correction.eval a = 0 := by
    rw [← Coset.sum_eval_modByMonic, hremainder]
    simp only [eval_mul, eval_C, eval_sub]
    rw [← Finset.mul_sum, Finset.sum_sub_distrib, comparable.sum_remainderOf_eq, sub_self,
      mul_zero]
  obtain ⟨other, hother⟩ :=
    DensePoly.toPolynomial_surjective (blinding.toPolynomial + correction)
  refine ⟨other, ?_, ?_, ?_, ?_⟩
  · rw [hother]
    exact degree_add_lt hblinding hcorrection
  · rw [hother, add_modByMonic, hremainder]
  · simp only [hother, eval_add]
    rw [Finset.sum_add_distrib, hsum, add_zero]
  · intro position hmem
    rw [hother, eval_add, hvanishes position hmem, add_zero]

end Comparable

end Parameters
end Sumcheck
end OracleProofs

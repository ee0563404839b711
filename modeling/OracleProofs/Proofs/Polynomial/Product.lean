/-
# Products

Both ways to multiply compute the product of the ring: coefficient by coefficient
over the pairs of coefficients that are present, and through values at as many
powers of a root of unity as the product has coefficients.
-/

import Mathlib
import OracleProofs.Polynomial.Product
import OracleProofs.Proofs.Domain.Coset
import OracleProofs.Proofs.Field.Binary
import OracleProofs.Proofs.Field.Prime

namespace OracleProofs
namespace DensePoly

open Polynomial

variable {F : Type} [FiniteField F] [LawfulField F]

private theorem productCoefficient_eq (p q : DensePoly F) (exponent : ℕ) :
    productCoefficient p q exponent = (p.toPolynomial * q.toPolynomial).coeff exponent := by
  have hpairs : (p.toPolynomial * q.toPolynomial).coeff exponent =
      ∑ place ∈ Finset.range (exponent + 1),
        p.coefficient place * q.coefficient (exponent - place) := by
    rw [coeff_mul, Finset.Nat.sum_antidiagonal_eq_sum_range_succ fun first second =>
      p.toPolynomial.coeff first * q.toPolynomial.coeff second]
    simp only [coeff_toPolynomial]
  have hpresent : Finset.Ico (exponent + 1 - q.length) (min p.length (exponent + 1)) ⊆
      Finset.range (exponent + 1) := by
    intro place hmem
    have hplace := Finset.mem_Ico.mp hmem
    rw [Finset.mem_range]
    omega
  rw [productCoefficient, FiniteField.sumRange_eq_sum, ← Finset.sum_Ico_eq_sum_range
    (fun place => p.coefficient place * q.coefficient (exponent - place)), hpairs]
  apply Finset.sum_subset hpresent
  intro place hinside hmissing
  rw [Finset.mem_range] at hinside
  rw [Finset.mem_Ico, not_and_or] at hmissing
  rcases hmissing with hlow | hhigh
  · rw [q.coefficient_of_length_le (by omega), mul_zero]
  · rw [p.coefficient_of_length_le (by omega), zero_mul]

/-- A product has fewer coefficients than its factors together. -/
theorem degree_mul_lt (p q : DensePoly F) :
    (p.toPolynomial * q.toPolynomial).degree < (p.length + q.length - 1 : ℕ) := by
  rw [degree_lt_iff_coeff_zero]
  intro exponent hle
  rw [coeff_mul]
  apply Finset.sum_eq_zero
  intro pair hpair
  have hsum := Finset.HasAntidiagonal.mem_antidiagonal.mp hpair
  rw [coeff_toPolynomial, coeff_toPolynomial]
  by_cases hfirst : p.length ≤ pair.1
  · rw [p.coefficient_of_length_le hfirst, zero_mul]
  · rw [q.coefficient_of_length_le (by omega), mul_zero]

/-- The product coefficient by coefficient is the product of the ring. -/
theorem toPolynomial_schoolbookMul (p q : DensePoly F) :
    (schoolbookMul p q).toPolynomial = p.toPolynomial * q.toPolynomial := by
  rw [schoolbookMul, toPolynomial_ofCoefficients]
  simp only [productCoefficient_eq]
  exact polynomialOf_ofFn_coeff (degree_mul_lt p q)

/-- The product through values is the product of the ring, if there are as many
values as the product has coefficients. -/
theorem toPolynomial_transformMul {dimension : ℕ} {p q : DensePoly F}
    (supported : dimension ≤ FiniteField.twoAdicity F) (hp : p.length ≤ 2 ^ dimension)
    (hq : q.length ≤ 2 ^ dimension) (room : p.length + q.length - 1 ≤ 2 ^ dimension) :
    (transformMul dimension p q).toPolynomial = p.toPolynomial * q.toPolynomial := by
  let subgroup : Coset F := ⟨dimension, 1, supported, one_ne_zero⟩
  have hprimitive := FiniteField.isPrimitiveRoot_rootOfUnity supported
  have hsize : subgroup.size = 2 ^ dimension := subgroup.size_eq
  have helement (index : ℕ) :
      subgroup.element index = FiniteField.rootOfUnity F dimension ^ index := by
    rw [Coset.element_eq]
    exact one_mul _
  simp only [transformMul]
  rw [toPolynomial_ofCoefficients, transform_eq_ofFn hprimitive hp,
    transform_eq_ofFn hprimitive hq]
  apply subgroup.eq_of_eval_point_eq
  · rw [hsize]
    refine (degree_polynomialOf_lt _).trans_eq ?_
    rw [size_inverseTransform hprimitive (by simp)]
  · rw [hsize]
    exact (degree_mul_lt p q).trans_le (by exact_mod_cast room)
  · intro position _
    have hindex : reverseBits dimension position < 2 ^ dimension := reverseBits_lt _ _
    show eval (subgroup.element (reverseBits dimension position)) _ =
      eval (subgroup.element (reverseBits dimension position)) _
    rw [helement, eval_inverseTransform hprimitive (FiniteField.two_pow_ne_zero supported)
      (by simp) hindex, eval_mul]
    simp [Array.getD_eq_getD_getElem?, hindex, toPolynomial]

/-- Whichever way is taken, the product is the product of the ring. -/
@[simp]
theorem toPolynomial_multiply (p q : DensePoly F) :
    (p.multiply q).toPolynomial = p.toPolynomial * q.toPolynomial := by
  rw [multiply]
  by_cases hzero : (p.isZero || q.isZero) = true
  · rw [if_pos hzero]
    rw [Bool.or_eq_true, isZero_iff, isZero_iff] at hzero
    rcases hzero with hzero | hzero
    · rw [hzero, zero_mul, toPolynomial_zero]
    · rw [hzero, mul_zero, toPolynomial_zero]
  · rw [if_neg hzero]
    by_cases hshort : min p.length q.length < transformThreshold
    · rw [if_pos hshort]
      exact toPolynomial_schoolbookMul p q
    · rw [if_neg hshort]
      have hpositive : 0 < transformThreshold := by decide
      have hroom := le_two_pow_ceilLog2 (p.length + q.length - 1)
      have hmin : transformThreshold ≤ min p.length q.length := not_lt.mp hshort
      rw [le_min_iff] at hmin
      by_cases hsupported :
          ceilLog2 (p.length + q.length - 1) ≤ FiniteField.twoAdicity F
      · simp only [if_pos hsupported]
        exact toPolynomial_transformMul hsupported (by omega) (by omega) hroom
      · simp only [if_neg hsupported]
        exact toPolynomial_schoolbookMul p q

/-- A product by its definition: each coefficient adds up the products of all pairs of coefficients
whose exponents have its own as their sum. -/
def IsProduct (p q product : DensePoly F) : Prop :=
  ∀ exponent, product.coefficient exponent =
    ∑ pair ∈ Finset.HasAntidiagonal.antidiagonal exponent,
      p.coefficient pair.1 * q.coefficient pair.2

theorem isProduct_iff {p q product : DensePoly F} :
    IsProduct p q product ↔ product.toPolynomial = p.toPolynomial * q.toPolynomial := by
  simp only [IsProduct, Polynomial.ext_iff, coeff_mul, coeff_toPolynomial]

theorem isZero_eq_false_iff {p : DensePoly F} : p.isZero = false ↔ p.toPolynomial ≠ 0 := by
  rw [Ne, ← isZero_iff, Bool.not_eq_true]

omit [LawfulField F] in
theorem length_pos_of_not_isZero {p : DensePoly F} (nonzero : p.isZero = false) :
    0 < p.length := by
  rw [isZero, Array.isEmpty_eq_false_iff] at nonzero
  exact Array.size_pos_iff.mpr nonzero

/-- No coefficient is lost or cancelled at the top of a product. -/
theorem length_of_isProduct {p q product : DensePoly F} (hp : p.isZero = false)
    (hq : q.isZero = false) (hproduct : IsProduct p q product) :
    product.length = p.length + q.length - 1 := by
  have hpne := isZero_eq_false_iff.mp hp
  have hqne := isZero_eq_false_iff.mp hq
  have hne : product.toPolynomial ≠ 0 := by
    rw [isProduct_iff.mp hproduct]
    exact mul_ne_zero hpne hqne
  have hdegree : product.degree = p.degree + q.degree := by
    rw [degree_eq_natDegree, degree_eq_natDegree, degree_eq_natDegree,
      isProduct_iff.mp hproduct, natDegree_mul hpne hqne]
  have hpositive := length_pos_of_not_isZero (isZero_eq_false_iff.mpr hne)
  have hppositive := length_pos_of_not_isZero hp
  have hqpositive := length_pos_of_not_isZero hq
  simp only [degree] at hdegree
  omega

/-- Whichever way is taken, multiplication computes the product, and nothing else is one. A factor
of zero makes the product zero. The sum over pairs of coefficients is right for all factors, and so
are the values at the powers of a root of unity as soon as there are as many of them as the product
has coefficients: none has to be spare. -/
theorem multiply_exact (p q : DensePoly F) :
    (∀ product, IsProduct p q product ↔ product = p.multiply q) ∧
      ((p.isZero || q.isZero) = true → IsProduct p q 0) ∧
      IsProduct p q (p.schoolbookMul q) ∧
      ((p.isZero || q.isZero) = false →
        (p.multiply q).length = p.length + q.length - 1 ∧
        ∀ dimension ≤ FiniteField.twoAdicity F, p.length + q.length - 1 ≤ 2 ^ dimension →
          IsProduct p q (transformMul dimension p q)) := by
  have hmultiply : IsProduct p q (p.multiply q) := isProduct_iff.mpr (toPolynomial_multiply p q)
  refine ⟨fun product => ⟨fun hproduct => ?_, ?_⟩, fun hzero => ?_,
    isProduct_iff.mpr (toPolynomial_schoolbookMul p q), fun hnonzero => ?_⟩
  · apply toPolynomial_injective
    rw [isProduct_iff.mp hproduct, toPolynomial_multiply]
  · rintro rfl
    exact hmultiply
  · rw [isProduct_iff, toPolynomial_zero, eq_comm, mul_eq_zero, ← isZero_iff, ← isZero_iff]
    simpa using hzero
  · rw [Bool.or_eq_false_iff] at hnonzero
    obtain ⟨hp, hq⟩ := hnonzero
    have hppositive := length_pos_of_not_isZero hp
    have hqpositive := length_pos_of_not_isZero hq
    refine ⟨length_of_isProduct hp hq hmultiply, fun dimension hsupported hroom => ?_⟩
    exact isProduct_iff.mpr
      (toPolynomial_transformMul hsupported (by omega) (by omega) hroom)

/-- The polynomial `1 + x + … + x ^ (count - 1)`. -/
def ones (F : Type) [FiniteField F] (count : ℕ) : DensePoly F :=
  .ofCoefficients (Array.replicate count 1)

/-- The product of 64 and 65 coefficients has 128, as many as the seventh subgroup has points. Its
middle coefficient adds up 64 pairs, whose sum is zero over the binary field, which has no subgroup
of that size. -/
theorem multiply_exact_at_threshold :
    (transformMul 7 (ones Goldilocks 64) (ones Goldilocks 65)).coefficient 127 = 1 ∧
      ((ones Goldilocks 64).multiply (ones Goldilocks 65)).coefficient 63 = .ofNat 64 ∧
      ((ones BinaryField 64).multiply (ones BinaryField 65)).coefficient 63 = 0 := by
  obtain ⟨hprime, -, -, htransform⟩ := multiply_exact (ones Goldilocks 64) (ones Goldilocks 65)
  obtain ⟨hbinary, -⟩ := multiply_exact (ones BinaryField 64) (ones BinaryField 65)
  obtain ⟨-, hvalues⟩ := htransform (by decide +kernel)
  refine ⟨(hvalues 7 (by decide) (by decide +kernel) 127).trans ?_,
    ((hprime _).mpr rfl 63).trans ?_, ((hbinary _).mpr rfl 63).trans ?_⟩
  all_goals decide +kernel

end DensePoly
end OracleProofs

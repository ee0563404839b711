/-
# Coefficients and polynomials

An array of coefficients stands for a polynomial of the mathematical library,
which is where degrees, roots and interpolation are argued about. Trailing zeros
do not matter for it, so a trimmed array is determined by the polynomial that it
stands for, and the operations on dense polynomials are those of the ring.
-/

import Mathlib
import OracleProofs.Polynomial.Dense
import OracleProofs.Proofs.Field.Basic
import OracleProofs.Proofs.Polynomial.Slices

namespace OracleProofs

open Polynomial

variable {F : Type} [FiniteField F] [LawfulField F]

/-- The polynomial with the given coefficients, constant term first. -/
noncomputable def polynomialOf (coefficients : Array F) : F[X] :=
  coefficients.toList.foldr (fun coefficient rest => rest * X + C coefficient) 0

@[simp]
theorem coeff_polynomialOf (coefficients : Array F) (exponent : ℕ) :
    (polynomialOf coefficients).coeff exponent = coefficients.getD exponent 0 := by
  obtain ⟨list⟩ := coefficients
  simp only [polynomialOf]
  induction list generalizing exponent with
  | nil => simp
  | cons first rest ih =>
      cases exponent with
      | zero => simp
      | succ exponent => simpa [coeff_C_succ] using ih exponent

/-- Two arrays stand for the same polynomial if they agree wherever one of them
has an entry. -/
theorem polynomialOf_eq_iff {first second : Array F} :
    polynomialOf first = polynomialOf second ↔
      ∀ exponent, first.getD exponent 0 = second.getD exponent 0 := by
  simp only [Polynomial.ext_iff, coeff_polynomialOf]

/-- Arrays of one length are determined by their polynomials. -/
theorem polynomialOf_inj {first second : Array F} (size : first.size = second.size) :
    polynomialOf first = polynomialOf second ↔ first = second := by
  constructor
  · intro hequal
    refine Array.ext size fun place hleft hright => ?_
    have hentry := polynomialOf_eq_iff.mp hequal place
    simpa [Array.getD_eq_getD_getElem?, hleft, hright] using hentry
  · rintro rfl
    rfl

theorem degree_polynomialOf_lt (coefficients : Array F) :
    (polynomialOf coefficients).degree < coefficients.size := by
  rw [degree_lt_iff_coeff_zero]
  intro exponent hle
  rw [coeff_polynomialOf, Array.getD_eq_getD_getElem?, Array.getElem?_eq_none hle, Option.getD_none]

/-- Evaluation from the highest coefficient down is evaluation. -/
theorem horner_eq_eval (coefficients : Array F) (point : F) :
    FiniteField.horner coefficients point = (polynomialOf coefficients).eval point := by
  obtain ⟨list⟩ := coefficients
  simp only [polynomialOf, FiniteField.horner, List.foldr_toArray']
  induction list with
  | nil => simp
  | cons first rest ih => simp [ih]

/-- A value as a sum over any range that covers all coefficients. -/
theorem eval_polynomialOf_eq_sum {coefficients : Array F} {count : ℕ}
    (covers : coefficients.size ≤ count) (point : F) :
    (polynomialOf coefficients).eval point =
      ∑ exponent ∈ Finset.range count, coefficients.getD exponent 0 * point ^ exponent := by
  rw [eval_eq_sum_of_degree_lt
    ((degree_polynomialOf_lt coefficients).trans_le (by exact_mod_cast covers))]
  simp only [coeff_polynomialOf]

theorem polynomialOf_ofFn (count : ℕ) (entry : ℕ → F) :
    polynomialOf (Array.ofFn fun place : Fin count => entry place) =
      ∑ place ∈ Finset.range count, C (entry place) * X ^ place := by
  ext exponent
  rw [coeff_polynomialOf, finsetSum_coeff]
  simp only [coeff_C_mul_X_pow]
  by_cases hinside : exponent < count
  · simp [Array.getD_eq_getD_getElem?, hinside]
  · simp [Array.getD_eq_getD_getElem?, hinside]

/-- Every polynomial below a degree is listed by an array of that length. -/
theorem polynomialOf_ofFn_coeff {p : F[X]} {count : ℕ} (hdegree : p.degree < count) :
    polynomialOf (Array.ofFn fun place : Fin count => p.coeff place) = p := by
  ext exponent
  rw [coeff_polynomialOf]
  by_cases hinside : exponent < count
  · simp [Array.getD_eq_getD_getElem?, hinside]
  · simp [Array.getD_eq_getD_getElem?, hinside,
      (degree_lt_iff_coeff_zero p count).mp hdegree exponent (not_lt.mp hinside)]

/-- The polynomial as the sum of its monomials. -/
theorem polynomialOf_eq_sum (coefficients : Array F) :
    polynomialOf coefficients =
      ∑ place ∈ Finset.range coefficients.size, C (coefficients.getD place 0) * X ^ place := by
  have hlist := polynomialOf_ofFn_coeff (degree_polynomialOf_lt coefficients)
  rw [polynomialOf_ofFn] at hlist
  simp only [coeff_polynomialOf] at hlist
  exact hlist.symm

theorem polynomialOf_replicate_zero (count : ℕ) :
    polynomialOf (Array.replicate count (0 : F)) = 0 := by
  ext exponent
  simp [Array.getD_eq_getD_getElem?, Array.getElem?_replicate]
  split <;> rfl

/-- Zeros at the end change nothing. -/
theorem polynomialOf_append_replicate_zero (coefficients : Array F) (count : ℕ) :
    polynomialOf (coefficients ++ Array.replicate count 0) = polynomialOf coefficients := by
  rw [polynomialOf_eq_iff]
  intro exponent
  rw [Array.getD_eq_getD_getElem?, Array.getD_eq_getD_getElem?]
  by_cases hinside : exponent < coefficients.size
  · rw [Array.getElem?_append_left hinside]
  · rw [Array.getElem?_append_right (not_lt.mp hinside), Array.getElem?_replicate,
      Array.getElem?_eq_none (not_lt.mp hinside)]
    split <;> rfl

/-- Joining arrays of one length entry by entry, in a linear way, joins the polynomials. -/
theorem polynomialOf_zipWith {join : F → F → F} {a b : F}
    (linear : ∀ x y, join x y = a * x + b * y) {first second : Array F}
    (size : first.size = second.size) :
    polynomialOf (Array.zipWith join first second) =
      C a * polynomialOf first + C b * polynomialOf second := by
  ext exponent
  rw [coeff_add, coeff_C_mul, coeff_C_mul, coeff_polynomialOf, coeff_polynomialOf,
    coeff_polynomialOf]
  by_cases hinside : exponent < first.size
  · have hother : exponent < second.size := size ▸ hinside
    simp [Array.getD_eq_getD_getElem?, hinside, hother, linear]
  · have hother : ¬exponent < second.size := size ▸ hinside
    simp [Array.getD_eq_getD_getElem?, hinside, hother]

private theorem polynomialOf_pop {coefficients : Array F} (nonempty : 0 < coefficients.size)
    (zero : coefficients[coefficients.size - 1] = 0) :
    polynomialOf coefficients.pop = polynomialOf coefficients := by
  rw [polynomialOf_eq_iff]
  intro exponent
  simp only [Array.getD_eq_getD_getElem?, Array.getElem?_pop]
  by_cases hinside : exponent < coefficients.size - 1
  · rw [if_pos hinside]
  · rw [if_neg hinside]
    by_cases hlast : exponent = coefficients.size - 1
    · subst hlast
      rw [Array.getElem?_eq_getElem (by omega), zero]
      rfl
    · rw [Array.getElem?_eq_none (by omega)]

/-- Removing trailing zeros keeps the polynomial. -/
@[simp]
theorem polynomialOf_trimZeros (coefficients : Array F) :
    polynomialOf (trimZeros coefficients) = polynomialOf coefficients := by
  rw [trimZeros]
  fun_induction Array.popWhile with
  | case1 values nonempty removed ih =>
      rw [ih, polynomialOf_pop nonempty (by simpa using removed)]
  | case2 => rfl
  | case3 => rfl

namespace DensePoly

/-- The polynomial with the coefficients of a dense one. -/
noncomputable def toPolynomial (p : DensePoly F) : F[X] :=
  polynomialOf p.coefficients

@[simp]
theorem coeff_toPolynomial (p : DensePoly F) (exponent : ℕ) :
    p.toPolynomial.coeff exponent = p.coefficient exponent :=
  coeff_polynomialOf _ _

@[simp]
theorem toPolynomial_ofCoefficients (coefficients : Array F) :
    (ofCoefficients coefficients).toPolynomial = polynomialOf coefficients :=
  polynomialOf_trimZeros coefficients

/-- Every polynomial can be written out. -/
theorem toPolynomial_surjective :
    Function.Surjective (toPolynomial : DensePoly F → F[X]) := by
  intro p
  have hdegree : p.degree < (p.natDegree + 1 : ℕ) := degree_lt_iff_coeff_zero _ _ |>.mpr
    fun _ hle => coeff_eq_zero_of_natDegree_lt hle
  exact ⟨_, (toPolynomial_ofCoefficients _).trans (polynomialOf_ofFn_coeff hdegree)⟩

theorem evaluate_eq_eval (p : DensePoly F) (point : F) :
    p.evaluate point = p.toPolynomial.eval point :=
  horner_eq_eval _ _

/-- The number of coefficients bounds the degree exactly. -/
theorem length_le_iff {p : DensePoly F} {bound : ℕ} :
    p.length ≤ bound ↔ p.toPolynomial.degree < bound := by
  constructor
  · intro hle
    exact (degree_polynomialOf_lt _).trans_le (by exact_mod_cast hle)
  · intro hdegree
    by_contra hlong
    rw [not_le, length] at hlong
    have hzero := (degree_lt_iff_coeff_zero _ _).mp hdegree (p.coefficients.size - 1) (by omega)
    rw [coeff_toPolynomial, coefficient, Array.getD_eq_getD_getElem?,
      Array.getElem?_eq_getElem (by omega), Option.getD_some] at hzero
    refine p.trimmed ?_
    rw [Array.back?_eq_getElem?, Array.getElem?_eq_getElem (by omega), hzero]

theorem length_ofCoefficients_le (coefficients : Array F) :
    (ofCoefficients coefficients).length ≤ coefficients.size := by
  rw [length_le_iff, toPolynomial_ofCoefficients]
  exact degree_polynomialOf_lt coefficients

theorem toPolynomial_injective :
    Function.Injective (toPolynomial : DensePoly F → F[X]) := by
  intro p q hequal
  have hsize : p.coefficients.size = q.coefficients.size :=
    le_antisymm (length_le_iff.mpr (hequal ▸ length_le_iff.mp le_rfl))
      (length_le_iff.mpr (hequal ▸ length_le_iff.mp le_rfl))
  exact DensePoly.ext ((polynomialOf_inj hsize).mp hequal)

theorem isZero_iff {p : DensePoly F} : p.isZero ↔ p.toPolynomial = 0 := by
  rw [← degree_eq_bot, ← Nat.WithBot.lt_zero_iff, ← Nat.cast_zero, ← length_le_iff]
  simp [isZero, length]

theorem degree_eq_natDegree (p : DensePoly F) : p.degree = p.toPolynomial.natDegree := by
  by_cases hzero : p.toPolynomial = 0
  · rw [hzero, natDegree_zero]
    have hlength : p.length ≤ 0 := length_le_iff.mpr (by simp [hzero])
    rw [degree]
    omega
  · have hbounds (bound : ℕ) : p.length ≤ bound ↔ p.toPolynomial.natDegree < bound := by
      rw [length_le_iff, natDegree_lt_iff_degree_lt hzero]
    have hupper := (hbounds p.length).mp le_rfl
    have hlower := (hbounds (p.toPolynomial.natDegree + 1)).mpr (Nat.lt_succ_self _)
    rw [degree]
    omega

@[simp]
theorem toPolynomial_zero : (0 : DensePoly F).toPolynomial = 0 := rfl

omit [LawfulField F] in
theorem coefficient_of_length_le (p : DensePoly F) {exponent : ℕ}
    (hle : p.length ≤ exponent) : p.coefficient exponent = 0 := by
  rw [coefficient, Array.getD_eq_getD_getElem?, Array.getElem?_eq_none hle, Option.getD_none]

private theorem coeff_combine (join : F → F → F) (join_zero : join 0 0 = 0) (p q : DensePoly F)
    (exponent : ℕ) : (combine join p q).toPolynomial.coeff exponent =
      join (p.coefficient exponent) (q.coefficient exponent) := by
  rw [combine, toPolynomial_ofCoefficients, coeff_polynomialOf]
  by_cases hinside : exponent < max p.length q.length
  · simp [Array.getD_eq_getD_getElem?, hinside]
  · have hp : p.coefficient exponent = 0 := coefficient_of_length_le p (by omega)
    have hq : q.coefficient exponent = 0 := coefficient_of_length_le q (by omega)
    simp [Array.getD_eq_getD_getElem?, hinside, hp, hq, join_zero]

@[simp]
theorem toPolynomial_add (p q : DensePoly F) :
    (p + q).toPolynomial = p.toPolynomial + q.toPolynomial := by
  ext exponent
  rw [coeff_add, coeff_toPolynomial p, coeff_toPolynomial q]
  exact coeff_combine (· + ·) (add_zero 0) p q exponent

@[simp]
theorem toPolynomial_sub (p q : DensePoly F) :
    (p - q).toPolynomial = p.toPolynomial - q.toPolynomial := by
  ext exponent
  rw [coeff_sub, coeff_toPolynomial p, coeff_toPolynomial q]
  exact coeff_combine (· - ·) (sub_zero 0) p q exponent

@[simp]
theorem toPolynomial_scale (p : DensePoly F) (factor : F) :
    (p.scale factor).toPolynomial = C factor * p.toPolynomial := by
  ext exponent
  rw [scale, toPolynomial_ofCoefficients, coeff_polynomialOf, coeff_C_mul, coeff_toPolynomial,
    coefficient, mul_comm factor]
  simp only [Array.getD_eq_getD_getElem?, Array.getElem?_map]
  cases p.coefficients[exponent]? <;> simp

end DensePoly
end OracleProofs

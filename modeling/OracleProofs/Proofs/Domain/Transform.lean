/-
# The transform evaluates

The radix-two transform lists the values of a polynomial at the powers of a
primitive root of unity, and the inverse transform finds the polynomial of
bounded degree that has given values there. The first statement is an induction
along the halving of the transform; the second is the orthogonality of the
powers of a root. Reducing a polynomial modulo `x ^ size - wrap` changes no value
at a point whose power is `wrap`.
-/

import Mathlib
import OracleProofs.Polynomial.Product
import OracleProofs.Proofs.Polynomial.Dense

namespace OracleProofs

open Polynomial

variable {F : Type} [FiniteField F] [LawfulField F]

/-- Every second coefficient makes one of two slices. -/
private theorem polynomialOf_everySecond {start half : ℕ} (coefficients : Array F)
    (short : coefficients.size ≤ 2 * half) :
    polynomialOf (everySecond start half coefficients) =
      slice 2 start (polynomialOf coefficients) := by
  ext exponent
  rw [coeff_slice Nat.two_pos, coeff_polynomialOf, coeff_polynomialOf, everySecond,
    mul_comm exponent]
  by_cases hinside : exponent < half
  · simp [Array.getD_eq_getD_getElem?, hinside]
  · rw [Array.getD_eq_getD_getElem?, Array.getElem?_eq_none (by simpa using hinside),
      Array.getD_eq_getD_getElem?, Array.getElem?_eq_none (by omega)]

/-- A value splits into the values of the even and the odd coefficients at the
square of the point. -/
private theorem eval_eq_even_add_odd {coefficients : Array F} {half : ℕ}
    (short : coefficients.size ≤ 2 * half) (point : F) :
    (polynomialOf coefficients).eval point =
      (polynomialOf (everySecond 0 half coefficients)).eval (point ^ 2) +
        point * (polynomialOf (everySecond 1 half coefficients)).eval (point ^ 2) := by
  rw [polynomialOf_everySecond coefficients short, polynomialOf_everySecond coefficients short,
    eval_eq_sum_slice Nat.two_pos]
  simp [Finset.sum_range_succ]

private theorem everySecond_powers (dimension : ℕ) (root : F) :
    everySecond 0 (2 ^ dimension / 2)
        (Array.ofFn fun place : Fin (2 ^ (dimension + 1) / 2) => root ^ (place : ℕ)) =
      Array.ofFn fun place : Fin (2 ^ dimension / 2) => (root ^ 2) ^ (place : ℕ) := by
  rw [everySecond]
  congr 1
  funext place
  have hinside : 2 * (place : ℕ) < 2 ^ (dimension + 1) / 2 := by
    have := place.isLt
    rw [pow_succ]
    omega
  simp [Array.getD_eq_getD_getElem?, hinside, pow_mul]

/-- A primitive root of even order reaches `-1` at half its order. -/
theorem pow_half_order {root : F} {dimension : ℕ}
    (primitive : IsPrimitiveRoot root (2 ^ (dimension + 1))) : root ^ 2 ^ dimension = -1 :=
  (primitive.pow (by positivity) (pow_succ 2 dimension)).eq_neg_one_of_two_right

private theorem transformBy_eq_ofFn (dimension : ℕ) {root : F} {coefficients : Array F}
    (primitive : IsPrimitiveRoot root (2 ^ dimension))
    (short : coefficients.size ≤ 2 ^ dimension) :
    transformBy dimension
        (Array.ofFn fun place : Fin (2 ^ dimension / 2) => root ^ (place : ℕ)) coefficients =
      Array.ofFn fun place : Fin (2 ^ dimension) =>
        (polynomialOf coefficients).eval (root ^ (place : ℕ)) := by
  induction dimension generalizing root coefficients with
  | zero =>
      rw [transformBy]
      refine Array.ext (by simp) fun place hleft hright => ?_
      rw [pow_zero] at short
      simp [eval_polynomialOf_eq_sum short]
  | succ dimension ih =>
      have hsquare : IsPrimitiveRoot (root ^ 2) (2 ^ dimension) :=
        primitive.pow (by positivity) (pow_succ' 2 dimension)
      have hhalf (start : ℕ) :
          (everySecond start (2 ^ dimension) coefficients).size ≤ 2 ^ dimension := by
        simp [everySecond]
      have hsplit := eval_eq_even_add_odd (by rw [← pow_succ']; exact short :
        coefficients.size ≤ 2 * 2 ^ dimension)
      rw [transformBy]
      simp only [Nat.one_shiftLeft]
      rw [everySecond_powers, ih hsquare (hhalf 0), ih hsquare (hhalf 1)]
      refine Array.ext ?_ fun place hleft hright => ?_
      · simp [pow_succ]
        omega
      · have hplace : place < 2 ^ dimension * 2 := by simpa [pow_succ] using hright
        have hcount : 2 ^ (dimension + 1) / 2 = 2 ^ dimension := by
          rw [pow_succ, Nat.mul_div_cancel _ two_pos]
        by_cases hlow : place < 2 ^ dimension
        · rw [Array.getElem_append_left (by simpa [hcount] using hlow)]
          simp [hsplit, ← pow_mul, mul_comm]
        · have hle : 2 ^ dimension ≤ place := not_lt.mp hlow
          rw [Array.getElem_append_right (by simpa [hcount] using hle)]
          obtain ⟨rest, rfl⟩ := Nat.exists_eq_add_of_le hle
          have hturn : root ^ (2 ^ dimension + rest) = -root ^ rest := by
            rw [pow_add, pow_half_order primitive, neg_one_mul]
          simp only [Array.getElem_zipWith, Array.getElem_ofFn, Array.size_zipWith,
            Array.size_ofFn, hcount, min_self, Nat.add_sub_cancel_left, hsplit, hturn, neg_sq]
          rw [← pow_mul, ← pow_mul, mul_comm 2 rest]
          ring

/-- The transform lists the values at the powers of a primitive root. -/
theorem transform_eq_ofFn {dimension : ℕ} {root : F} {coefficients : Array F}
    (primitive : IsPrimitiveRoot root (2 ^ dimension))
    (short : coefficients.size ≤ 2 ^ dimension) :
    transform dimension root coefficients =
      Array.ofFn fun place : Fin (2 ^ dimension) =>
        (polynomialOf coefficients).eval (root ^ (place : ℕ)) := by
  rw [transform, geometric_eq_ofFn, Nat.one_shiftLeft]
  simp only [one_mul]
  exact transformBy_eq_ofFn dimension primitive short

/-- The powers of a root of unity other than one add up to zero. -/
theorem sum_pow_eq_zero {ratio : F} {order : ℕ} (power : ratio ^ order = 1)
    (ne_one : ratio ≠ 1) : ∑ place ∈ Finset.range order, ratio ^ place = 0 := by
  have h := geom_sum_mul ratio order
  rw [power, sub_self] at h
  exact (mul_eq_zero.mp h).resolve_right (sub_ne_zero.mpr ne_one)

/-- Powers of two different powers of a root of unity are orthogonal. -/
theorem sum_inv_pow_mul_pow {dimension : ℕ} {root : F}
    (primitive : IsPrimitiveRoot root (2 ^ dimension)) {place other : ℕ}
    (inside : place < 2 ^ dimension) (otherInside : other < 2 ^ dimension) :
    ∑ exponent ∈ Finset.range (2 ^ dimension), (root⁻¹ ^ other * root ^ place) ^ exponent =
      if other = place then (2 : F) ^ dimension else 0 := by
  have hone : root ^ 2 ^ dimension = 1 := primitive.pow_eq_one
  have hroot : root ≠ 0 := primitive.ne_zero (by positivity)
  by_cases hequal : other = place
  · rw [if_pos hequal, hequal, inv_pow, inv_mul_cancel₀ (pow_ne_zero _ hroot)]
    simp
  · rw [if_neg hequal]
    apply sum_pow_eq_zero
    · rw [mul_pow, ← pow_mul, ← pow_mul, mul_comm other, mul_comm place, pow_mul, pow_mul,
        inv_pow, hone, inv_one, one_pow, one_pow, mul_one]
    · intro hratio
      rw [inv_pow, inv_mul_eq_one₀ (pow_ne_zero _ hroot)] at hratio
      exact hequal (primitive.pow_inj otherInside inside hratio)

theorem inverseTransform_eq_ofFn {dimension : ℕ} {root : F} {values : Array F}
    (primitive : IsPrimitiveRoot root (2 ^ dimension)) (size : values.size = 2 ^ dimension) :
    inverseTransform dimension root values =
      Array.ofFn fun exponent : Fin (2 ^ dimension) =>
        (polynomialOf values).eval (root⁻¹ ^ (exponent : ℕ)) * ((2 : F) ^ dimension)⁻¹ := by
  have hinverse : root ^ (2 ^ dimension - 1) = root⁻¹ := by
    apply eq_inv_of_mul_eq_one_left
    rw [← pow_succ, Nat.sub_add_cancel Nat.one_le_two_pow, primitive.pow_eq_one]
  rw [inverseTransform, Nat.one_shiftLeft, power_eq_pow, hinverse,
    transform_eq_ofFn primitive.inv size.le]
  simp only [FiniteField.ofNat_eq_cast, Nat.cast_pow, Nat.cast_ofNat]
  exact Array.map_ofFn

/-- The inverse transform finds coefficients with the given values. -/
theorem eval_inverseTransform {dimension : ℕ} {root : F} {values : Array F}
    (primitive : IsPrimitiveRoot root (2 ^ dimension)) (invertible : (2 : F) ^ dimension ≠ 0)
    (size : values.size = 2 ^ dimension) {place : ℕ} (inside : place < 2 ^ dimension) :
    (polynomialOf (inverseTransform dimension root values)).eval (root ^ place) =
      values.getD place 0 := by
  rw [inverseTransform_eq_ofFn primitive size, polynomialOf_ofFn _ fun exponent =>
      (polynomialOf values).eval (root⁻¹ ^ exponent) * ((2 : F) ^ dimension)⁻¹, eval_finsetSum]
  simp only [eval_mul, eval_C, eval_pow, eval_X]
  calc
    _ = ∑ exponent ∈ Finset.range (2 ^ dimension), ∑ other ∈ Finset.range (2 ^ dimension),
          values.getD other 0 * ((2 : F) ^ dimension)⁻¹ *
            (root⁻¹ ^ other * root ^ place) ^ exponent := by
      apply Finset.sum_congr rfl
      intro exponent _
      rw [eval_polynomialOf_eq_sum size.le, Finset.sum_mul, Finset.sum_mul]
      apply Finset.sum_congr rfl
      intro other _
      rw [mul_pow, ← pow_mul, ← pow_mul, ← pow_mul, mul_comm other, mul_comm place]
      ring
    _ = ∑ other ∈ Finset.range (2 ^ dimension), values.getD other 0 * ((2 : F) ^ dimension)⁻¹ *
          if other = place then (2 : F) ^ dimension else 0 := by
      rw [Finset.sum_comm]
      apply Finset.sum_congr rfl
      intro other hother
      rw [← Finset.mul_sum, sum_inv_pow_mul_pow primitive inside (Finset.mem_range.mp hother)]
    _ = values.getD place 0 := by
      rw [Finset.sum_eq_single_of_mem place (Finset.mem_range.mpr inside)]
      · rw [if_pos rfl, mul_assoc, inv_mul_cancel₀ invertible, mul_one]
      · intro other _ hdifferent
        rw [if_neg hdifferent, mul_zero]

theorem size_inverseTransform {dimension : ℕ} {root : F} {values : Array F}
    (primitive : IsPrimitiveRoot root (2 ^ dimension)) (size : values.size = 2 ^ dimension) :
    (inverseTransform dimension root values).size = 2 ^ dimension := by
  rw [inverseTransform_eq_ofFn primitive size, Array.size_ofFn]

/-- Stretching the variable multiplies the points. -/
theorem eval_stretch (ratio : F) (coefficients : Array F) (point : F) :
    (polynomialOf (stretch ratio coefficients)).eval point =
      (polynomialOf coefficients).eval (ratio * point) := by
  have hsize : (stretch ratio coefficients).size ≤ coefficients.size := by
    simp [stretch, geometric_eq_ofFn]
  rw [eval_polynomialOf_eq_sum hsize, eval_polynomialOf_eq_sum le_rfl]
  apply Finset.sum_congr rfl
  intro exponent hexponent
  have hinside : exponent < coefficients.size := Finset.mem_range.mp hexponent
  simp [stretch, geometric_eq_ofFn, Array.getD_eq_getD_getElem?, hinside, mul_pow, mul_assoc]

@[simp]
theorem size_stretch (ratio : F) (coefficients : Array F) :
    (stretch ratio coefficients).size = coefficients.size := by
  simp [stretch, geometric_eq_ofFn]

/-- Wrapping coefficients around keeps the values at the points whose power is
the wrapping factor. -/
theorem eval_wrapAround {size : ℕ} (positive : 0 < size) {wrap point : F}
    (power : point ^ size = wrap) (coefficients : Array F) :
    (polynomialOf (wrapAround size wrap coefficients)).eval point =
      (polynomialOf coefficients).eval point := by
  have hcovers : coefficients.size ≤ (coefficients.size + size - 1) / size * size := by
    have h := Nat.div_add_mod (coefficients.size + size - 1) size
    have hmod := Nat.mod_lt (coefficients.size + size - 1) positive
    rw [mul_comm] at h
    omega
  simp only [wrapAround]
  rw [polynomialOf_ofFn size fun place =>
      FiniteField.sumRange ((coefficients.size + size - 1) / size) fun chunk =>
        coefficients.getD (chunk * size + place) 0 *
          (geometric wrap ((coefficients.size + size - 1) / size) 1).getD chunk 0,
    eval_finsetSum, eval_polynomialOf_eq_sum hcovers, sum_range_mul]
  apply Finset.sum_congr rfl
  intro place _
  rw [FiniteField.sumRange_eq_sum, eval_mul, eval_C, eval_pow, eval_X, Finset.sum_mul]
  apply Finset.sum_congr rfl
  intro chunk hchunk
  have hinside := Finset.mem_range.mp hchunk
  rw [pow_add, mul_comm chunk, pow_mul, power]
  simp [geometric_eq_ofFn, Array.getD_eq_getD_getElem?, hinside, mul_assoc]

omit [LawfulField F] in
@[simp]
theorem size_wrapAround (size : ℕ) (wrap : F) (coefficients : Array F) :
    (wrapAround size wrap coefficients).size = size := by
  simp [wrapAround]

end OracleProofs

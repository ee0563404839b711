/-
# Values and remainders

The polynomial of a domain is zero at all its points, so the values there do not tell
a polynomial from what a division by it leaves. The transform of a coset lists the values of
a polynomial of any length, its inverse gives back the remainder, which is the polynomial
itself if it has no more coefficients than there are points, and a sum over all points is
the constant term of the remainder, once for each point.
-/

import Mathlib
import OracleProofs.Proofs.Domain.Basic

namespace OracleProofs

open Polynomial

variable {F : Type} [FiniteField F] [LawfulField F]

namespace Coset

section Transforms

theorem vanishingPolynomial_eq (coset : Coset F) :
    coset.vanishingPolynomial = X ^ coset.size - C (coset.shift ^ coset.size) := by
  rw [vanishingPolynomial, shiftPower_eq]

theorem degree_modByMonic_lt (coset : Coset F) (p : F[X]) :
    (p %ₘ coset.vanishingPolynomial).degree < coset.size := by
  refine (Polynomial.degree_modByMonic_lt p coset.monic_vanishingPolynomial).trans_eq ?_
  rw [vanishingPolynomial, degree_X_pow_sub_C coset.size_pos]

/-- Division by the polynomial of the coset changes no value. -/
theorem valuesOf_modByMonic (coset : Coset F) (p : F[X]) :
    coset.valuesOf (p %ₘ coset.vanishingPolynomial) = coset.valuesOf p := by
  rw [valuesOf, valuesOf]
  congr 1
  funext index
  have hmem := coset.element_mem_points index.isLt
  exact eval₂_modByMonic_eq_self_of_root ((coset.eval_vanishingPolynomial_eq_zero_iff _).mpr hmem)

/-- Interpolation leaves what a division by the polynomial of the coset leaves. -/
theorem polynomialOf_interpolate_valuesOf (coset : Coset F) (p : F[X]) :
    polynomialOf (coset.interpolate (coset.valuesOf p)) = p %ₘ coset.vanishingPolynomial := by
  rw [← valuesOf_modByMonic, interpolate_valuesOf coset (coset.degree_modByMonic_lt p)]

/-- Everything can be divided by the polynomial of a coset. -/
theorem exists_divide?_eq_ok (coset : Coset F) (p : DensePoly F) :
    ∃ division, coset.vanishing.divide? p = .ok division ∧
      division.remainder.toPolynomial = p.toPolynomial %ₘ coset.vanishingPolynomial := by
  have hleads : coset.vanishing.terms.Leads coset.size 1 :=
    VanishingPolynomial.leads_terms_powerMinus coset.size_pos _
  exact ⟨_, VanishingPolynomial.divide?_eq_ok hleads rfl p,
    VanishingPolynomial.remainder_divide_powerMinus coset.size_pos _ p⟩

omit [LawfulField F] in
/-- A word is refused exactly if it has not one value for each point. -/
theorem interpolate?_eq_error_iff (coset : Coset F) {values : Array F} {error : DomainError} :
    coset.interpolate? values = .error error ↔
      values.size ≠ coset.size ∧ error = .evaluationCount coset.size values.size := by
  rw [interpolate?]
  by_cases hsize : values.size = coset.size
  · rw [if_pos hsize]
    simp [hsize]
  · rw [if_neg hsize]
    simp [hsize, eq_comm]

/-- Short coefficients are found again, with zeros at the end. -/
theorem interpolate_valuesOf_of_size_le (coset : Coset F) {coefficients : Array F}
    (short : coefficients.size ≤ coset.size) :
    coset.interpolate (coset.valuesOf (polynomialOf coefficients)) =
      coefficients ++ Array.replicate (coset.size - coefficients.size) 0 := by
  have hdegree := (degree_polynomialOf_lt coefficients).trans_le (Nat.cast_le.mpr short)
  have hsize := coset.size_interpolate (coset.size_valuesOf (polynomialOf coefficients))
  rw [← polynomialOf_inj (by simp [hsize, short]), polynomialOf_append_replicate_zero,
    coset.interpolate_valuesOf hdegree]

/-- The points `2`, `2 * i`, `-2` and `-2 * i`, for a square root `i` of `-1`. -/
def fourthRoots : Coset Goldilocks := ⟨2, .ofNat 2, by decide, by decide⟩

/-- More coefficients than there are points. -/
def sixCoefficients : Array Goldilocks := #[.ofNat 5, 0, .ofNat 4, 0, .ofNat 7, .ofNat 2]

/-- Six coefficients wrapped around to the four points. -/
def fourCoefficients : Array Goldilocks := #[.ofNat 117, .ofNat 32, .ofNat 4]

/-- The forward transform has one value for each point, the one of the polynomial there, however
many coefficients it is given. These are the values of what a division by the polynomial of the
coset leaves, which has no more coefficients than there are points. -/
theorem evaluateAll_of_any_length (coset : Coset F) (coefficients : Array F) :
    (coset.evaluateAll coefficients).size = coset.size ∧
      (∀ index < coset.size, (coset.evaluateAll coefficients)[index]? =
        some (∑ exponent ∈ Finset.range coefficients.size,
          coefficients.getD exponent 0 * coset.element index ^ exponent)) ∧
      ∃ division, coset.vanishing.divide? (.ofCoefficients coefficients) = .ok division ∧
        division.remainder.length ≤ coset.size ∧
        division.remainder.toPolynomial =
          polynomialOf coefficients %ₘ (X ^ coset.size - C (coset.shift ^ coset.size)) ∧
        coset.evaluateAll coefficients =
          coset.evaluateAll division.remainder.coefficients := by
  obtain ⟨division, hdivision, hremainder⟩ :=
    coset.exists_divide?_eq_ok (.ofCoefficients coefficients)
  rw [DensePoly.toPolynomial_ofCoefficients] at hremainder
  simp only [evaluateAll_eq_valuesOf]
  refine ⟨coset.size_valuesOf _, fun index hindex => ?_, division, hdivision, ?_, ?_, ?_⟩
  · rw [← eval_polynomialOf_eq_sum le_rfl]
    simp [valuesOf, hindex]
  · rw [DensePoly.length_le_iff, hremainder]
    exact coset.degree_modByMonic_lt _
  · rw [hremainder, vanishingPolynomial_eq]
  · rw [← DensePoly.toPolynomial, hremainder, valuesOf_modByMonic]

theorem evaluateAll_at_fourth_roots :
    (fourthRoots.evaluateAll sixCoefficients).size = 4 ∧
      (fourthRoots.evaluateAll sixCoefficients)[2]? = some (.ofNat 69) ∧
      fourthRoots.evaluateAll sixCoefficients = fourthRoots.evaluateAll fourCoefficients := by
  obtain ⟨hsize, hvalues, division, hdivision, -, -, hsame⟩ :=
    evaluateAll_of_any_length fourthRoots sixCoefficients
  have hremainder : (fourthRoots.vanishing.divide? (.ofCoefficients sixCoefficients)).map
      (·.remainder.coefficients) = .ok fourCoefficients := by decide +kernel
  rw [hdivision] at hremainder
  have hfour : division.remainder.coefficients = fourCoefficients := Except.ok.inj hremainder
  refine ⟨hsize, (hvalues 2 (by decide)).trans (by decide +kernel), ?_⟩
  rw [hsame, hfour]

/-- The two transforms undo each other, up to multiples of the polynomial of the coset. Values are
refused exactly if there is not one for each point, and coefficients that are not more than the
points come back as they were, continued by zeros. -/
theorem round_trips_exact (coset : Coset F) :
    (∀ values error, coset.interpolate? values = .error error ↔
        values.size ≠ coset.size ∧ error = .evaluationCount coset.size values.size) ∧
      (∀ values : Array F, values.size = coset.size →
        ∃ coefficients, coset.interpolate? values = .ok coefficients ∧
          coefficients.size = coset.size ∧ coset.evaluateAll coefficients = values) ∧
      ∀ coefficients, ∃ remainder,
        coset.interpolate? (coset.evaluateAll coefficients) = .ok remainder ∧
          remainder.size = coset.size ∧
          polynomialOf remainder =
            polynomialOf coefficients %ₘ (X ^ coset.size - C (coset.shift ^ coset.size)) ∧
          (coefficients.size ≤ coset.size →
            remainder = coefficients ++ Array.replicate (coset.size - coefficients.size) 0) := by
  refine ⟨fun values error => coset.interpolate?_eq_error_iff, fun values hsize => ?_,
    fun coefficients => ?_⟩
  · refine ⟨coset.interpolate values, if_pos hsize, coset.size_interpolate hsize, ?_⟩
    rw [evaluateAll_eq_valuesOf, coset.valuesOf_interpolate hsize]
  · rw [evaluateAll_eq_valuesOf, ← vanishingPolynomial_eq]
    exact ⟨_, coset.interpolate?_valuesOf _, coset.size_interpolate (coset.size_valuesOf _),
      coset.polynomialOf_interpolate_valuesOf _, coset.interpolate_valuesOf_of_size_le⟩

/-- Three values are refused, four are met, of six coefficients four are left and two come back. -/
theorem round_trips_at_fourth_roots :
    fourthRoots.interpolate? #[1, 1, 1] = .error (.evaluationCount 4 3) ∧
      (∃ coefficients, fourthRoots.interpolate? #[1, 0, 1, 1] = .ok coefficients ∧
        fourthRoots.evaluateAll coefficients = #[1, 0, 1, 1]) ∧
      (∃ remainder, fourthRoots.interpolate? (fourthRoots.evaluateAll sixCoefficients) =
          .ok remainder ∧ polynomialOf remainder =
            polynomialOf sixCoefficients %ₘ (X ^ 4 - C (Residue.ofNat 2 ^ 4))) ∧
      fourthRoots.interpolate? (fourthRoots.evaluateAll #[1, .ofNat 2]) =
        .ok #[1, .ofNat 2, 0, 0] := by
  obtain ⟨hrefused, hvalues, hcoefficients⟩ := round_trips_exact fourthRoots
  obtain ⟨coefficients, hok, -, hmet⟩ := hvalues #[1, 0, 1, 1] rfl
  obtain ⟨remainder, hremainder, -, hpolynomial, -⟩ := hcoefficients sixCoefficients
  obtain ⟨short, hshort, -, -, hback⟩ := hcoefficients #[1, .ofNat 2]
  refine ⟨(hrefused _ _).mpr ⟨by decide, rfl⟩, ⟨coefficients, hok, hmet⟩,
    ⟨remainder, hremainder, hpolynomial⟩, ?_⟩
  rw [hshort, hback (by decide)]
  rfl

end Transforms

section Sum

/-- A sum over all points is the constant term of the remainder, once for each point. -/
theorem sum_eval_element (coset : Coset F) (p : F[X]) :
    ∑ index ∈ Finset.range coset.size, p.eval (coset.element index) =
      coset.size * (p %ₘ coset.vanishingPolynomial).coeff 0 := by
  rw [← coset.sum_points fun a => p.eval a, ← sum_eval_modByMonic,
    coset.sum_eval_of_degree_lt (coset.degree_modByMonic_lt p)]

/-- The size of the smallest coset that contains this one and has a point for each of so many
coefficients. -/
def sizeWithRoom (coset : Coset F) (count : ℕ) : ℕ :=
  max coset.size (2 ^ Nat.clog 2 count)

omit [LawfulField F] in
theorem sizeWithRoom_eq (coset : Coset F) (count : ℕ) :
    coset.sizeWithRoom count = 2 ^ max (ceilLog2 count) coset.dimension := by
  rw [sizeWithRoom, size_eq, ← ceilLog2_eq_clog, max_comm,
    (pow_right_mono₀ one_le_two).map_max]

omit [LawfulField F] in
theorem sizeWithRoom_le_iff (coset : Coset F) (count : ℕ) :
    coset.sizeWithRoom count ≤ 2 ^ FiniteField.twoAdicity F ↔
      ceilLog2 count ≤ FiniteField.twoAdicity F := by
  rw [sizeWithRoom_eq, Nat.pow_le_pow_iff_right one_lt_two, max_le_iff,
    and_iff_left coset.dimension_le]

omit [LawfulField F] in
/-- A polynomial for which the field has no coset is refused. -/
theorem sum?_of_unsupported (coset : Coset F) {p : DensePoly F}
    (unsupported : 2 ^ FiniteField.twoAdicity F < coset.sizeWithRoom p.length) :
    coset.sum? p = .error (.unsupportedSize (coset.sizeWithRoom p.length)) := by
  have hdimension : FiniteField.twoAdicity F < max (ceilLog2 p.length) coset.dimension := by
    rwa [sizeWithRoom_eq, Nat.pow_lt_pow_iff_right one_lt_two] at unsupported
  simp only [sum?, Nat.one_shiftLeft, sizeWithRoom_eq]
  rw [ofSize?_of_unsupported coset.shift_ne_zero hdimension]
  rfl

end Sum

end Coset

namespace AffineSubspace

/-- The sum adds up the values at all points. -/
theorem sum_eq (space : AffineSubspace F) (p : DensePoly F) :
    space.sum p = ∑ index ∈ Finset.range space.size, p.evaluate (space.element index) := by
  rw [sum, evaluateAll_eq_valuesOf, valuesOf, valuesOver, ← Array.foldl_toList,
    Array.toList_ofFn, ← List.sum_eq_foldl, List.sum_ofFn,
    Fin.sum_univ_eq_sum_range fun index =>
      (polynomialOf p.coefficients).eval (pick space.basis space.shift index), size_eq]
  simp only [DensePoly.evaluate_eq_eval]
  rfl

end AffineSubspace

namespace EvaluationDomain

/-- The single point `3` of the binary field. -/
def onePoint : Coset BinaryField := ⟨0, ⟨3⟩, by decide, by decide⟩

/-- Over a subspace the sum of a polynomial is the sum of its values at all points. Over a coset it
is refused exactly if the field has no coset that contains all points and has one for each
coefficient. Otherwise the values are read at positions inside that coset, where the points of the
smaller one stand, and the sum is that of the values there. In any case the values add up to the
constant term of what a division by the polynomial of the coset leaves, once for each point. -/
theorem sum?_exact (p : DensePoly F) :
    (∀ space : AffineSubspace F, (subspace space).sum? p =
        .ok (∑ index ∈ Finset.range space.size, p.evaluate (space.element index))) ∧
      ∀ c : Coset F,
        (∀ error, (coset c).sum? p = .error error ↔
          2 ^ FiniteField.twoAdicity F < c.sizeWithRoom p.length ∧
            error = .unsupportedSize (c.sizeWithRoom p.length)) ∧
        (c.sizeWithRoom p.length ≤ 2 ^ FiniteField.twoAdicity F →
          (coset c).sum? p =
              .ok (∑ index ∈ Finset.range c.size, p.evaluate (c.element index)) ∧
            ∃ extended, Coset.ofSize? (c.sizeWithRoom p.length) c.shift = .ok extended ∧
              ∀ index < c.size, ∃ position < extended.size,
                extended.regroup? c.dimension index = .ok position ∧
                  extended.element position = c.element index) ∧
        ∃ division, c.vanishing.divide? p = .ok division ∧
          ∑ index ∈ Finset.range c.size, p.evaluate (c.element index) =
            c.size * division.remainder.coefficient 0 := by
  refine ⟨fun space => congrArg Except.ok (space.sum_eq p), fun c => ?_⟩
  have hsum (supported : c.sizeWithRoom p.length ≤ 2 ^ FiniteField.twoAdicity F) :
      (coset c).sum? p = .ok (∑ index ∈ Finset.range c.size, p.evaluate (c.element index)) := by
    rw [sum?, c.sum?_eq ((c.sizeWithRoom_le_iff _).mp supported), c.sum_points]
    simp only [DensePoly.evaluate_eq_eval]
  have herror (error : DomainError) (refused : 2 ^ FiniteField.twoAdicity F <
      c.sizeWithRoom p.length ∧ error = .unsupportedSize (c.sizeWithRoom p.length)) :
      (coset c).sum? p = .error error := by
    obtain ⟨hunsupported, rfl⟩ := refused
    exact c.sum?_of_unsupported hunsupported
  have hdecided : c.sizeWithRoom p.length ≤ 2 ^ FiniteField.twoAdicity F ∨
      ∃ error, 2 ^ FiniteField.twoAdicity F < c.sizeWithRoom p.length ∧
        error = DomainError.unsupportedSize (c.sizeWithRoom p.length) := by
    simpa using le_or_gt _ _
  obtain ⟨-, hrefused⟩ := outcome_iff (fun hsupported => ⟨_, hsum hsupported⟩) herror hdecided
  refine ⟨hrefused, fun hsupported => ⟨hsum hsupported, ?_⟩, ?_⟩
  · obtain ⟨extended, hextended, hle, hshift⟩ :=
      c.exists_extension ((c.sizeWithRoom_le_iff _).mp hsupported)
    rw [Nat.one_shiftLeft, ← c.sizeWithRoom_eq] at hextended
    refine ⟨extended, hextended, fun index hindex => ?_⟩
    obtain ⟨hplace, helement⟩ := Coset.regroup_spec hle hshift hindex
    exact ⟨_, hplace, if_pos hle, helement⟩
  · obtain ⟨division, hdivision, hremainder⟩ := c.exists_divide?_eq_ok p
    refine ⟨division, hdivision, ?_⟩
    simp only [DensePoly.evaluate_eq_eval]
    rw [c.sum_eval_element, ← hremainder, DensePoly.coeff_toPolynomial]

/-- A polynomial over the binary field whose values at four points do not cancel. -/
def cubic : DensePoly BinaryField := .ofCoefficients #[⟨1⟩, ⟨0⟩, ⟨4⟩, ⟨7⟩]

/-- Six coefficients fit on a larger coset of the prime field; the binary field has none that is
larger than one point. -/
theorem sum?_exact_at_three_domains :
    (subspace .fourPoints).sum? cubic = .ok ⟨18⟩ ∧
      (coset .fourthRoots).sum? (.ofCoefficients Coset.sixCoefficients) = .ok (.ofNat 468) ∧
      (coset onePoint).sum? cubic = .error (.unsupportedSize 4) := by
  obtain ⟨hsubspace, hpoint⟩ := sum?_exact cubic
  obtain ⟨-, hcoset⟩ := sum?_exact (.ofCoefficients Coset.sixCoefficients)
  obtain ⟨-, hroots, -⟩ := hcoset .fourthRoots
  obtain ⟨hrefused, -⟩ := hpoint onePoint
  refine ⟨(hsubspace .fourPoints).trans ?_, (hroots ?_).1.trans ?_, (hrefused _).mpr ⟨?_, ?_⟩⟩
  all_goals decide +kernel

end EvaluationDomain

end OracleProofs

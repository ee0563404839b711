/-
# Masking with and division by a vanishing polynomial

The polynomial that vanishes on a domain is sparse, and its terms stand for it, also
when a constant of zero is left out. If one of them leads, masking adds a multiple
of that polynomial and division by the terms is division with remainder. Away from
the domain the multiple can lead to any values, and if it is short, in one way only.
-/

import Mathlib
import OracleProofs.Polynomial.Vanishing
import OracleProofs.Proofs.Fault
import OracleProofs.Proofs.Polynomial.Sparse

namespace OracleProofs
namespace VanishingPolynomial

open Polynomial

/-- Where a polynomial does not vanish, adding a multiple of it leads to any values, and only one
multiple with as few coefficients as there are values does so. -/
theorem existsUnique_eval_add_mul_eq {K ι : Type} [Field K] [DecidableEq ι] {nodes : Finset ι}
    {node : ι → K} (distinct : Set.InjOn node nodes) {vanishing : K[X]}
    (nonzero : ∀ index ∈ nodes, vanishing.eval (node index) ≠ 0) (p : K[X]) (value : ι → K) :
    ∃! multiple : K[X], multiple.degree < nodes.card ∧ ∀ index ∈ nodes,
      (p + vanishing * multiple).eval (node index) = value index := by
  have hvalue (multiple : K[X]) {index : ι} (hmem : index ∈ nodes) :
      (p + vanishing * multiple).eval (node index) = value index ↔ multiple.eval (node index) =
        (value index - p.eval (node index)) / vanishing.eval (node index) := by
    rw [eval_add, eval_mul, eq_div_iff (nonzero index hmem), eq_sub_iff_add_eq', mul_comm]
  refine ⟨Lagrange.interpolate nodes node fun index =>
    (value index - p.eval (node index)) / vanishing.eval (node index),
    ⟨Lagrange.degree_interpolate_lt _ distinct, fun index hmem => ?_⟩, ?_⟩
  · rw [hvalue _ hmem, Lagrange.eval_interpolate_at_node _ distinct hmem]
  · rintro multiple ⟨hdegree, hvalues⟩
    exact Lagrange.eq_interpolate_of_eval_eq _ distinct hdegree fun index hmem =>
      (hvalue multiple hmem).mp (hvalues index hmem)

variable {F : Type} [FiniteField F] [LawfulField F]

section Bounded

variable {z : VanishingPolynomial F} (bounded : ∀ term ∈ z.terms, term.1 ≤ z.terms.degree)
include bounded

/-- Written out, the polynomial is the one that the terms stand for, in whatever order they are. -/
theorem toPolynomial_toDense_of_bounded : z.toDense.toPolynomial = z.terms.toPolynomial :=
  (DensePoly.toPolynomial_ofCoefficients _).trans (Terms.polynomialOf_toCoefficients bounded)

/-- The product is the one of the ring. -/
theorem toPolynomial_multiply (p : DensePoly F) :
    (z.multiply p).toPolynomial = z.terms.toPolynomial * p.toPolynomial :=
  (DensePoly.toPolynomial_ofCoefficients _).trans
    (Terms.polynomialOf_multiply bounded p.coefficients)

end Bounded

section Leading

variable {z : VanishingPolynomial F} {degree : ℕ} {leading : F}

/-- Written out, the polynomial is the one that the terms stand for. -/
theorem toPolynomial_toDense (leads : z.terms.Leads degree leading) :
    z.toDense.toPolynomial = z.terms.toPolynomial :=
  toPolynomial_toDense_of_bounded leads.bounded

/-- Masking adds the multiple of the polynomial that vanishes. -/
theorem toPolynomial_mask (leads : z.terms.Leads degree leading) (p multiplier : DensePoly F) :
    (z.mask p multiplier).toPolynomial =
      p.toPolynomial + z.terms.toPolynomial * multiplier.toPolynomial := by
  rw [mask, DensePoly.toPolynomial_add, toPolynomial_multiply leads.bounded]

theorem evaluate_mask (leads : z.terms.Leads degree leading) (p multiplier : DensePoly F) (a : F) :
    (z.mask p multiplier).evaluate a =
      p.evaluate a + z.terms.toPolynomial.eval a * multiplier.evaluate a := by
  simp only [DensePoly.evaluate_eq_eval, toPolynomial_mask leads, eval_add, eval_mul]

/-- Quotient and remainder satisfy the equation of a division, and the remainder is
short. -/
theorem divide_spec (leads : z.terms.Leads degree leading) (p : DensePoly F) :
    p.toPolynomial = z.terms.toPolynomial * (z.divide p).quotient.toPolynomial +
        (z.divide p).remainder.toPolynomial ∧
      (z.divide p).remainder.toPolynomial.degree < degree := by
  simp only [divide, Division.toQuotient, DensePoly.toPolynomial_ofCoefficients]
  exact leads.divide_spec p.coefficients

/-- Quotient and remainder are determined by the equation and the length of the remainder. -/
theorem divide_eq_iff (leads : z.terms.Leads degree leading) {p q r : DensePoly F} :
    z.divide p = ⟨q, r⟩ ↔
      p.toPolynomial = z.terms.toPolynomial * q.toPolynomial + r.toPolynomial ∧
        r.length ≤ degree := by
  rw [DensePoly.length_le_iff]
  constructor
  · intro hdivide
    have hspec := divide_spec leads p
    rwa [hdivide] at hspec
  · rintro ⟨hequation, hshort⟩
    obtain ⟨hquotient, hremainder⟩ := leads.divide_unique hequation hshort
    have hq : (z.divide p).quotient = q := DensePoly.toPolynomial_injective
      ((DensePoly.toPolynomial_ofCoefficients _).trans hquotient.symm)
    have hr : (z.divide p).remainder = r := DensePoly.toPolynomial_injective
      ((DensePoly.toPolynomial_ofCoefficients _).trans hremainder.symm)
    rw [← hq, ← hr]

/-- The remainder is the one of the ring. -/
theorem toPolynomial_remainder (leads : z.terms.Leads degree 1) (p : DensePoly F) :
    (z.divide p).remainder.toPolynomial = p.toPolynomial %ₘ z.terms.toPolynomial :=
  (DensePoly.toPolynomial_ofCoefficients _).trans (leads.polynomialOf_remainder p.coefficients)

/-- A division leaves what it would leave without the mask. -/
theorem remainder_mask (leads : z.terms.Leads degree 1) (p multiplier : DensePoly F) :
    (z.divide (z.mask p multiplier)).remainder = (z.divide p).remainder := by
  apply DensePoly.toPolynomial_injective
  rw [toPolynomial_remainder leads, toPolynomial_remainder leads, toPolynomial_mask leads,
    add_modByMonic, self_mul_modByMonic leads.monic_toPolynomial, add_zero]

omit [LawfulField F] in
/-- A divisor with a term is not refused. -/
theorem divide?_of_ne_nil (nonempty : z.terms ≠ []) (words : z.terms? = .ok z.terms)
    (p : DensePoly F) : z.divide? p = .ok (z.divide p) := by
  have hterms : z.terms.divide? p.coefficients = .ok (z.terms.divide p.coefficients) :=
    if_neg (by simpa using nonempty)
  rw [divide?, words, ok_bind, hterms]
  rfl

omit [LawfulField F] in
theorem divide?_eq_ok (leads : z.terms.Leads degree leading) (words : z.terms? = .ok z.terms)
    (p : DensePoly F) : z.divide? p = .ok (z.divide p) :=
  divide?_of_ne_nil (List.ne_nil_of_mem (List.mem_of_getLast? leads.getLast?)) words p

end Leading

section Room

omit [LawfulField F]

variable {z : VanishingPolynomial F} (words : z.terms? = .ok z.terms)
include words

/-- A polynomial that can be held is written out. -/
theorem toDense?_eq_ok (room : (z.terms.degree + 1) * FiniteField.width F < addressableBytes) :
    z.toDense? = .ok z.toDense := by
  have hcoefficients : z.terms.toCoefficients? = .ok z.terms.toCoefficients := by
    rw [Terms.toCoefficients?, checkRoom, if_pos room]
    rfl
  rw [toDense?, words, ok_bind, hcoefficients]
  rfl

/-- A product that can be held is not refused. -/
theorem multiply?_eq_ok {p : DensePoly F}
    (room : z.terms.productSize p.length * FiniteField.width F < addressableBytes) :
    z.multiply? p = .ok (z.multiply p) := by
  rw [DensePoly.length] at room
  have hproduct : z.terms.multiply? p.coefficients = .ok (z.terms.multiply p.coefficients) := by
    rw [Terms.multiply?, checkRoom, if_pos room]
    rfl
  rw [multiply?, words, ok_bind, hproduct]
  rfl

theorem mask?_eq_ok {multiplier : DensePoly F}
    (room : z.terms.productSize multiplier.length * FiniteField.width F < addressableBytes)
    (p : DensePoly F) : z.mask? p multiplier = .ok (z.mask p multiplier) := by
  rw [mask?, multiply?_eq_ok words room]
  rfl

end Room

theorem toPolynomial_terms_powerMinus (degree : ℕ) (constant : F) :
    (terms (.powerMinus degree constant)).toPolynomial = X ^ degree - C constant := by
  rw [terms]
  by_cases hzero : constant = 0
  · rw [if_pos hzero]
    simp [Terms.toPolynomial, hzero]
  · rw [if_neg hzero]
    simp [Terms.toPolynomial, sub_eq_add_neg, add_comm]

theorem leads_terms_powerMinus {degree : ℕ} (positive : 0 < degree) (constant : F) :
    (terms (.powerMinus degree constant)).Leads degree 1 := by
  rw [terms]
  by_cases hzero : constant = 0
  · rw [if_pos hzero]
    exact ⟨rfl, List.pairwise_singleton _ _, one_ne_zero⟩
  · rw [if_neg hzero]
    exact ⟨rfl, by simpa using positive, one_ne_zero⟩

theorem toPolynomial_mask_powerMinus {degree : ℕ} (positive : 0 < degree) (constant : F)
    (p multiplier : DensePoly F) :
    (mask (.powerMinus degree constant) p multiplier).toPolynomial =
      p.toPolynomial + (X ^ degree - C constant) * multiplier.toPolynomial := by
  rw [toPolynomial_mask (leads_terms_powerMinus positive constant), toPolynomial_terms_powerMinus]

theorem divide_powerMinus {degree : ℕ} (positive : 0 < degree) (constant : F) (p : DensePoly F) :
    p.toPolynomial = (X ^ degree - C constant) *
          (divide (.powerMinus degree constant) p).quotient.toPolynomial +
        (divide (.powerMinus degree constant) p).remainder.toPolynomial ∧
      (divide (.powerMinus degree constant) p).remainder.toPolynomial.degree < degree := by
  rw [← toPolynomial_terms_powerMinus]
  exact divide_spec (leads_terms_powerMinus positive constant) p

theorem remainder_divide_powerMinus {degree : ℕ} (positive : 0 < degree) (constant : F)
    (p : DensePoly F) :
    (divide (.powerMinus degree constant) p).remainder.toPolynomial =
      p.toPolynomial %ₘ (X ^ degree - C constant) := by
  rw [toPolynomial_remainder (leads_terms_powerMinus positive constant),
    toPolynomial_terms_powerMinus]

end VanishingPolynomial
end OracleProofs

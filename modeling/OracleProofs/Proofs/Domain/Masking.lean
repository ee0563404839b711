/-
# Masks on a domain

A masked polynomial is the polynomial and a multiple of the one that is zero at the points
of the domain and nowhere else. At these points the mask cannot be seen, and a division
leaves what it would leave without the mask. At other points the multiple can lead to any
values. Among the masks with as few coefficients as there are such points exactly one leads
to given values, whatever the polynomial was, so these values say nothing about it.
-/

import Mathlib
import OracleProofs.Proofs.Domain.Basic

namespace OracleProofs
namespace EvaluationDomain

open Polynomial

variable {F : Type} [FiniteField F]

section Room

theorem size_eq (domain : EvaluationDomain F) : domain.size = 2 ^ domain.dimension := by
  cases domain with
  | coset coset => exact coset.size_eq
  | subspace space => exact space.size_eq

variable [LawfulField F]

theorem productSize_vanishing_le (domain : EvaluationDomain F) (length : ℕ) :
    domain.vanishing.terms.productSize length ≤ length + domain.size := by
  rw [Terms.productSize, domain.leads_terms_vanishing.degree_eq]
  split
  · exact Nat.zero_le _
  · exact le_rfl

/-- A domain that fits in memory, with or without further items, has indices that are words. -/
theorem dimension_lt_wordBits {domain : EvaluationDomain F} {further : ℕ}
    (room : (further + domain.size) * FiniteField.width F < addressableBytes) :
    domain.dimension < wordBits := by
  have hsize : domain.size < addressableBytes := calc
    domain.size ≤ further + domain.size := Nat.le_add_left _ _
    _ ≤ (further + domain.size) * FiniteField.width F :=
      Nat.le_mul_of_pos_right _ FiniteField.width_pos
    _ < addressableBytes := room
  rw [size_eq, addressableBytes, Nat.one_shiftLeft, Nat.pow_lt_pow_iff_right one_lt_two] at hsize
  exact hsize.trans (by decide)

/-- Division by the polynomial of a domain whose indices are words is never refused. -/
theorem divide?_eq_ok {domain : EvaluationDomain F} (word : domain.dimension < wordBits)
    (p : DensePoly F) : domain.vanishing.divide? p = .ok (domain.vanishing.divide p) :=
  VanishingPolynomial.divide?_eq_ok domain.leads_terms_vanishing (domain.terms?_vanishing word).1 p

/-- A masked polynomial is written out if there is room for it. -/
theorem mask?_eq_ok {domain : EvaluationDomain F} {multiplier : DensePoly F}
    (room : (multiplier.length + domain.size) * FiniteField.width F < addressableBytes)
    (p : DensePoly F) :
    domain.vanishing.mask? p multiplier = .ok (domain.vanishing.mask p multiplier) := by
  have hterms := (domain.terms?_vanishing (dimension_lt_wordBits room)).1
  have hproduct := domain.productSize_vanishing_le multiplier.length
  exact VanishingPolynomial.mask?_eq_ok hterms
    ((Nat.mul_le_mul_right _ hproduct).trans_lt room) p

end Room

variable [LawfulField F] (domain : EvaluationDomain F)

/-- The mask cannot be seen at a point of the domain. -/
theorem evaluate_mask_element (p multiplier : DensePoly F) {index : ℕ}
    (inside : index < domain.size) :
    (domain.vanishing.mask p multiplier).evaluate (domain.element index) =
      p.evaluate (domain.element index) := by
  have hzero := (domain.evaluate_vanishing_eq_zero_iff _).mpr ⟨index, inside, rfl⟩
  rw [VanishingPolynomial.evaluate_mask domain.leads_terms_vanishing, ← evaluate_vanishing, hzero,
    zero_mul, add_zero]

/-- Outside the domain exactly one short mask leads to given values. -/
theorem existsUnique_mask (p : DensePoly F) {count : ℕ} {point : Fin count → F}
    (distinct : Function.Injective point)
    (outside : ∀ place, domain.vanishing.evaluate (point place) ≠ 0) (value : Fin count → F) :
    ∃! multiplier : DensePoly F, multiplier.length ≤ count ∧ ∀ place,
      (domain.vanishing.mask p multiplier).evaluate (point place) = value place := by
  simp only [evaluate_vanishing] at outside
  have hmultiple := VanishingPolynomial.existsUnique_eval_add_mul_eq (distinct.injOn)
    (fun place (_ : place ∈ Finset.univ) => outside place) p.toPolynomial value
  have hbijective : Function.Bijective (DensePoly.toPolynomial : DensePoly F → F[X]) :=
    ⟨DensePoly.toPolynomial_injective, DensePoly.toPolynomial_surjective⟩
  rw [hbijective.existsUnique_iff] at hmultiple
  simpa [DensePoly.length_le_iff, DensePoly.evaluate_eq_eval,
    VanishingPolynomial.toPolynomial_mask domain.leads_terms_vanishing] using hmultiple

/-- Masking hides a polynomial away from the domain and changes nothing else. It keeps the values
at all points of the domain and the remainder, which is the one in the ring of polynomials. At
other points, as many as there may be, exactly one mask with that many coefficients leads to given
values. -/
theorem mask_exact (p : DensePoly F) :
    (∀ multiplier : DensePoly F,
        (∀ index < domain.size,
          (domain.vanishing.mask p multiplier).evaluate (domain.element index) =
            p.evaluate (domain.element index)) ∧
        (domain.vanishing.divide (domain.vanishing.mask p multiplier)).remainder =
          (domain.vanishing.divide p).remainder ∧
        ((multiplier.length + domain.size) * FiniteField.width F < addressableBytes →
          domain.vanishing.mask? p multiplier = .ok (domain.vanishing.mask p multiplier) ∧
          ∀ dividend, domain.vanishing.divide? dividend =
            .ok (domain.vanishing.divide dividend))) ∧
      (domain.vanishing.divide p).remainder.toPolynomial =
        p.toPolynomial %ₘ domain.vanishing.toDense.toPolynomial ∧
      ∀ (count : ℕ) (point value : Fin count → F), Function.Injective point →
        (∀ place, ∀ index < domain.size, point place ≠ domain.element index) →
        ∃! multiplier : DensePoly F, multiplier.length ≤ count ∧ ∀ place,
          (domain.vanishing.mask p multiplier).evaluate (point place) = value place := by
  have hleads := domain.leads_terms_vanishing
  refine ⟨fun multiplier => ⟨fun index hindex => domain.evaluate_mask_element p multiplier hindex,
    VanishingPolynomial.remainder_mask hleads p multiplier,
    fun hroom => ⟨mask?_eq_ok hroom p, divide?_eq_ok (dimension_lt_wordBits hroom)⟩⟩, ?_, ?_⟩
  · rw [VanishingPolynomial.toPolynomial_remainder hleads,
      VanishingPolynomial.toPolynomial_toDense hleads]
  · intro count point value hdistinct houtside
    refine domain.existsUnique_mask p hdistinct (fun place => ?_) value
    rw [Ne, evaluate_vanishing_eq_zero_iff]
    rintro ⟨index, hindex, helement⟩
    exact houtside place index hindex helement.symm

/-- The polynomial `5 * x ^ 2 + x + 2`. -/
def quadratic : DensePoly Goldilocks := .ofCoefficients #[.ofNat 2, 1, .ofNat 5]

/-- The mask `x + 1`. -/
def successor : DensePoly Goldilocks := .ofCoefficients #[1, 1]

/-- The masked polynomial is `x ^ 3 + 6 * x ^ 2 - 8 * x - 7`. It leads from `0` and `1` to `-7` and
`-8`, as no other mask of two coefficients does. -/
theorem mask_exact_at_opposite_points :
    oppositePoints.vanishing.mask? quadratic successor =
        .ok (.ofCoefficients #[-.ofNat 7, -.ofNat 8, .ofNat 6, 1]) ∧
      (oppositePoints.vanishing.mask quadratic successor).evaluate (-.ofNat 3) = .ofNat 44 ∧
      (oppositePoints.vanishing.divide
          (oppositePoints.vanishing.mask quadratic successor)).remainder =
        .ofCoefficients #[.ofNat 47, 1] ∧
      ∃! multiplier : DensePoly Goldilocks, multiplier.length ≤ 2 ∧ ∀ place,
        (oppositePoints.vanishing.mask quadratic multiplier).evaluate (![0, 1] place) =
          ![-.ofNat 7, -.ofNat 8] place := by
  obtain ⟨hmasks, -, hvalues⟩ := mask_exact oppositePoints quadratic
  obtain ⟨hsame, hremainder, hroom⟩ := hmasks successor
  have helement : oppositePoints.element 1 = -.ofNat 3 := by decide +kernel
  rw [← helement]
  refine ⟨(hroom ?_).1.trans ?_, (hsame 1 ?_).trans ?_, hremainder.trans ?_,
    hvalues 2 ![0, 1] ![-.ofNat 7, -.ofNat 8] ?_ ?_⟩
  all_goals decide +kernel

end EvaluationDomain
end OracleProofs

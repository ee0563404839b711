/-
# Points and vanishing polynomials of all domains

A coset lists the solutions of `x ^ n = c`, an affine subspace the zeros of a
linearized polynomial. What both have in common is shown for both and then used
without looking at the kind of a domain: indices and points correspond, and the
polynomial of the domain has one term that leads, with a coefficient of one and
the number of points as its exponent, and is zero at the points and nowhere else.
-/

import Mathlib
import OracleProofs.Domain.Basic
import OracleProofs.Proofs.Domain.Coset
import OracleProofs.Proofs.Domain.Subspace

namespace OracleProofs
namespace EvaluationDomain

open Polynomial

variable {F : Type} [FiniteField F] [LawfulField F]

/-- Different indices have different points. -/
theorem element_injOn (domain : EvaluationDomain F) :
    Set.InjOn domain.element (Set.Iio domain.size) := by
  cases domain with
  | coset coset => exact coset.element_injOn
  | subspace space => exact space.element_injOn

theorem degree_vanishing (domain : EvaluationDomain F) :
    domain.vanishing.degree = domain.size := by
  cases domain with
  | coset coset => rfl
  | subspace space =>
      exact (space.vanishesOn_tower.degree_withConstant _).trans space.size_eq.symm

/-- The polynomial of a domain is monic and has as many zeros as its degree allows. -/
theorem leads_terms_vanishing (domain : EvaluationDomain F) :
    domain.vanishing.terms.Leads domain.size 1 := by
  cases domain with
  | coset coset => exact VanishingPolynomial.leads_terms_powerMinus coset.size_pos _
  | subspace space => exact space.leads_terms_vanishing

theorem evaluate_vanishing (domain : EvaluationDomain F) (a : F) :
    domain.vanishing.evaluate a = domain.vanishing.terms.toPolynomial.eval a := by
  cases domain with
  | coset coset =>
      refine (coset.evaluate_vanishing a).trans (congrArg (eval a) ?_)
      exact (VanishingPolynomial.toPolynomial_terms_powerMinus _ _).symm
  | subspace space => exact (Linearized.eval_toPolynomial_terms _ a).symm

/-- The polynomial of a domain is zero at its points and nowhere else. -/
theorem evaluate_vanishing_eq_zero_iff (domain : EvaluationDomain F) (a : F) :
    domain.vanishing.evaluate a = 0 ↔ ∃ index < domain.size, domain.element index = a := by
  cases domain with
  | coset coset =>
      rw [vanishing, coset.evaluate_vanishing, coset.eval_vanishingPolynomial_eq_zero_iff,
        Coset.points, Finset.mem_image]
      simp only [Finset.mem_range, size, element]
  | subspace space => exact space.evaluate_vanishing_eq_zero_iff a

/-- A domain whose indices are words has a polynomial whose exponents are words. -/
theorem terms?_vanishing (domain : EvaluationDomain F) (word : domain.dimension < wordBits) :
    domain.vanishing.terms? = .ok domain.vanishing.terms ∧
      domain.vanishing.degree? = .ok domain.vanishing.degree := by
  cases domain with
  | coset coset => exact ⟨rfl, rfl⟩
  | subspace space =>
      have hcheck : (AffineSubspace.moved space.tower.vanishing space.shift).checkExponents =
          .ok () := by
        rw [Linearized.checkExponents, if_pos]
        exact space.vanishesOn_tower.length_linear.trans_le word
      constructor
      · rw [vanishing, AffineSubspace.vanishing, VanishingPolynomial.terms?, Linearized.terms?,
          hcheck]
        rfl
      · rw [vanishing, AffineSubspace.vanishing, VanishingPolynomial.degree?, Linearized.degree?,
          hcheck]
        rfl

/-- A domain lists its points without repetition, and its polynomial is monic, has the number of
points as degree and is zero at the points and nowhere else. -/
theorem vanishing_exact (domain : EvaluationDomain F) :
    Set.InjOn domain.element (Set.Iio domain.size) ∧
      domain.vanishing.degree = domain.size ∧
      domain.vanishing.toDense.toPolynomial.Monic ∧
      domain.vanishing.toDense.toPolynomial.natDegree = domain.size ∧
      (domain.dimension < wordBits →
        domain.vanishing.degree? = .ok domain.size ∧ domain.vanishing.isMonic? = .ok true) ∧
      ∀ a, domain.vanishing.evaluate a = domain.vanishing.toDense.toPolynomial.eval a ∧
        (domain.vanishing.evaluate a = 0 ↔ ∃ index < domain.size, a = domain.element index) := by
  have hleads := domain.leads_terms_vanishing
  rw [VanishingPolynomial.toPolynomial_toDense hleads]
  refine ⟨domain.element_injOn, domain.degree_vanishing, hleads.monic_toPolynomial,
    hleads.natDegree_toPolynomial, fun hword => ?_, fun a => ⟨domain.evaluate_vanishing a, ?_⟩⟩
  · obtain ⟨hterms, hdegree⟩ := domain.terms?_vanishing hword
    refine ⟨by rw [hdegree, degree_vanishing], ?_⟩
    rw [VanishingPolynomial.isMonic?, hterms]
    simp [Except.map, Terms.isMonic, hleads.getLast?]
  · simp only [domain.evaluate_vanishing_eq_zero_iff, eq_comm]

/-- The two points `3` and `-3`. -/
def oppositePoints : EvaluationDomain Goldilocks :=
  .coset ⟨1, .ofNat 3, by decide, by decide⟩

/-- The polynomial of `3` and `-3` is zero at `-3` and not at `4`, the one of `5`, `7`, `6` and
`4` is zero at `4` and not at `3`. -/
theorem vanishing_exact_at_two_domains :
    oppositePoints.vanishing.degree? = .ok 2 ∧ oppositePoints.vanishing.isMonic? = .ok true ∧
      oppositePoints.vanishing.evaluate (-.ofNat 3) = 0 ∧
      oppositePoints.vanishing.evaluate (.ofNat 4) ≠ 0 ∧
      (subspace .fourPoints).vanishing.degree? = .ok 4 ∧
      (subspace .fourPoints).vanishing.isMonic? = .ok true ∧
      (subspace .fourPoints).vanishing.evaluate ⟨4⟩ = 0 ∧
      (subspace .fourPoints).vanishing.evaluate ⟨3⟩ ≠ 0 := by
  obtain ⟨-, -, -, -, hcoset, hopposite⟩ := vanishing_exact oppositePoints
  obtain ⟨-, -, -, -, hsubspace, hfour⟩ := vanishing_exact (subspace .fourPoints)
  obtain ⟨hdegree, hmonic⟩ := hcoset (by decide)
  obtain ⟨hother, hleading⟩ := hsubspace (by decide)
  refine ⟨hdegree, hmonic, (hopposite _).2.mpr ⟨1, by decide, by decide +kernel⟩, ?_, hother,
    hleading, (hfour _).2.mpr ⟨3, by decide, by decide +kernel⟩, ?_⟩
  · rw [Ne, (hopposite _).2]
    decide +kernel
  · rw [Ne, (hfour _).2]
    decide +kernel

end EvaluationDomain
end OracleProofs

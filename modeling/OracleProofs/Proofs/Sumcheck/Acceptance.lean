/-
# Which polynomials are accepted

A prover compares degrees with the bound of its parameters, one after the other: those
of the products of two polynomials other than zero, in the order of the pairs, and that
of the blinding polynomial at the end. The first degree that reaches the bound is
reported. If there is none, the inner product stays below the bound whatever cancels in
it, and the sums and the commitment that follow cannot fail. Polynomials that are paired
with zero do not matter to any of this, since evaluation wraps them around.
-/

import Mathlib
import OracleProofs.Proofs.Sumcheck.Prover

namespace OracleProofs
namespace Sumcheck

open Polynomial

variable {F : Type} [FiniteField F]

section Degrees

/-- The check of several degrees: the first one that reaches the bound is refused. -/
def checkDegrees (bound : ℕ) (degrees : List ℕ) : Except SumcheckError Unit :=
  match degrees.find? (bound ≤ ·) with
  | some degree => .error (.degreeBoundExceeded degree bound)
  | none => .ok ()

theorem checkDegrees_append (bound : ℕ) (degrees later : List ℕ) :
    checkDegrees bound (degrees ++ later) = (do
      checkDegrees bound degrees
      checkDegrees bound later) := by
  rw [checkDegrees, List.find?_append, checkDegrees, checkDegrees]
  cases degrees.find? (bound ≤ ·) <;> rfl

theorem checkDegrees_singleton (bound degree : ℕ) :
    checkDegrees bound [degree] = Prover.checkDegree degree bound := by
  rw [checkDegrees, List.find?_singleton, Prover.checkDegree]
  by_cases hreaches : bound ≤ degree
  · rw [if_pos hreaches, if_pos (decide_eq_true hreaches)]
  · rw [if_neg hreaches, if_neg (by simpa using hreaches)]

theorem checkDegrees_eq_ok_iff {bound : ℕ} {degrees : List ℕ} :
    checkDegrees bound degrees = .ok () ↔ ∀ degree ∈ degrees, degree < bound := by
  have hnone : degrees.find? (bound ≤ ·) = none ↔ ∀ degree ∈ degrees, degree < bound := by
    simp [List.find?_eq_none]
  rw [← hnone, checkDegrees]
  cases degrees.find? (bound ≤ ·) <;> simp

theorem checkDegrees_eq_error_iff {bound : ℕ} {degrees : List ℕ} {error : SumcheckError} :
    checkDegrees bound degrees = .error error ↔ ∃ degree,
      degrees.find? (bound ≤ ·) = some degree ∧ error = .degreeBoundExceeded degree bound := by
  rw [checkDegrees]
  cases degrees.find? (bound ≤ ·) <;> simp [eq_comm]

variable [LawfulField F]

open Classical in
/-- The degrees of the products of two polynomials other than zero. -/
noncomputable def productDegrees (pairs : List (DensePoly F × DensePoly F)) : List ℕ :=
  (pairs.filter fun pair => pair.1.toPolynomial ≠ 0 ∧ pair.2.toPolynomial ≠ 0).map fun pair =>
    pair.1.toPolynomial.natDegree + pair.2.toPolynomial.natDegree

theorem checkPairs_eq (bound : ℕ) (pairs : List (DensePoly F × DensePoly F)) :
    Prover.checkPairs bound pairs = checkDegrees bound (productDegrees pairs) := by
  induction pairs with
  | nil => rfl
  | cons pair rest ih =>
      obtain ⟨p, s⟩ := pair
      have hnonzero : (!p.isZero && !s.isZero) = true ↔
          p.toPolynomial ≠ 0 ∧ s.toPolynomial ≠ 0 := by
        rw [Bool.and_eq_true, Bool.not_eq_true', Bool.not_eq_true', ← Bool.not_eq_true,
          ← Bool.not_eq_true, DensePoly.isZero_iff, DensePoly.isZero_iff]
      rw [Prover.checkPairs, productDegrees, List.filter_cons]
      by_cases hproduct : p.toPolynomial ≠ 0 ∧ s.toPolynomial ≠ 0
      · rw [if_pos (hnonzero.mpr hproduct), if_pos (decide_eq_true hproduct), List.map_cons,
          ← List.singleton_append, checkDegrees_append, checkDegrees_singleton,
          p.degree_eq_natDegree, s.degree_eq_natDegree, ih]
        rfl
      · rw [if_neg (mt hnonzero.mp hproduct), if_neg (by simpa using hproduct)]
        exact ih

end Degrees

variable [LawfulField F]

namespace Instance

/-- All degrees that are compared with the bound, in order. -/
noncomputable def checkedDegrees (given : Instance F) : List ℕ :=
  productDegrees given.pairs ++ [given.blinding.toPolynomial.natDegree]

/-- Why a prover is not started. -/
inductive Refused (given : Instance F) (bound : ℕ) : SumcheckError → Prop
  | unmatched (lengths : given.publicPolys.length ≠ given.secretPolys.length) :
      Refused given bound
        (.mismatchedPairs given.publicPolys.length given.secretPolys.length)
  | degree (matched : given.publicPolys.length = given.secretPolys.length) {degree : ℕ}
      (first : given.checkedDegrees.find? (bound ≤ ·) = some degree) :
      Refused given bound (.degreeBoundExceeded degree bound)

/-- Either the polynomials pair up and all degrees stay below the bound, or there is a reason to
refuse. -/
theorem below_or_refused (given : Instance F) (bound : ℕ) :
    (given.publicPolys.length = given.secretPolys.length ∧
        ∀ degree ∈ given.checkedDegrees, degree < bound) ∨
      ∃ error, given.Refused bound error := by
  by_cases hmatched : given.publicPolys.length = given.secretPolys.length
  · cases hfirst : given.checkedDegrees.find? (bound ≤ ·) with
    | some degree => exact .inr ⟨_, .degree hmatched hfirst⟩
    | none =>
        refine .inl ⟨hmatched, fun degree hdegree => ?_⟩
        simpa using List.find?_eq_none.mp hfirst degree hdegree
  · exact .inr ⟨_, .unmatched hmatched⟩

/-- The two checks of the prover are one check of all degrees. -/
theorem checks_eq (given : Instance F) (bound : ℕ) :
    (do
      Prover.checkPairs bound given.pairs
      Prover.checkDegree given.blinding.degree bound) =
      checkDegrees bound given.checkedDegrees := by
  rw [checkedDegrees, checkDegrees_append, checkDegrees_singleton, checkPairs_eq,
    given.blinding.degree_eq_natDegree]

/-- Polynomials are well formed if they pair up and all degrees stay below the bound. -/
theorem wellFormed_iff (given : Instance F) {bound : ℕ} (positive : 0 < bound) :
    given.WellFormed bound ↔ given.publicPolys.length = given.secretPolys.length ∧
      ∀ degree ∈ given.checkedDegrees, degree < bound := by
  rw [← checkDegrees_eq_ok_iff, ← given.checks_eq, bind_eq_ok_iff]
  constructor
  · rintro ⟨hmatched, hproducts, hblinding⟩
    exact ⟨hmatched, (), checkPairs_eq_ok_iff.mpr hproducts,
      (checkDegree_toPolynomial_iff positive _).mpr hblinding⟩
  · rintro ⟨hmatched, _, hproducts, hblinding⟩
    exact ⟨hmatched, checkPairs_eq_ok_iff.mp hproducts,
      (checkDegree_toPolynomial_iff positive _).mp hblinding⟩

end Instance

namespace Prover

variable {parameters : Parameters F} {given : Instance F}

/-- Whatever fails in the checks is the answer of the prover. -/
theorem new?_eq_error_of_refused {error : SumcheckError}
    (refused : given.Refused parameters.degreeBound error) :
    new? parameters given.publicPolys given.secretPolys given.blinding = .error error := by
  cases refused with
  | unmatched lengths =>
      rw [new?, if_pos lengths]
      rfl
  | @degree matched degree first =>
      have hchecks : checkDegrees parameters.degreeBound given.checkedDegrees =
          .error (.degreeBoundExceeded degree parameters.degreeBound) :=
        checkDegrees_eq_error_iff.mpr ⟨degree, first, rfl⟩
      rw [← given.checks_eq] at hchecks
      rw [new?, if_neg (not_not.mpr matched), ← Instance.pairs]
      simp only [← bind_assoc, hchecks]
      rfl

/-- Under accepted parameters a prover is refused exactly if the polynomials do not pair up or a
degree reaches the bound, of which the first is reported; the low-degree test, its domains and the
commitment never refuse. Every other prover holds the sum of the inner product over the summation
domain and announces that of the blinding polynomial. -/
theorem refused_iff {summationDomain codewordDomain : EvaluationDomain F} {degreeBound : ℕ}
    {localization : List ℕ} {repetitions : ℕ}
    (accepted : Parameters.new? summationDomain codewordDomain degreeBound localization
      repetitions = .ok parameters)
    (publicPolys secretPolys : List (DensePoly F)) (blinding : DensePoly F) :
    (∀ error, new? parameters publicPolys secretPolys blinding = .error error ↔
        (Instance.mk publicPolys secretPolys blinding).Refused degreeBound error) ∧
      (∀ error, new? parameters publicPolys secretPolys blinding ≠ .error (.fri error)) ∧
      ((∃ prover, new? parameters publicPolys secretPolys blinding = .ok prover) ↔
        publicPolys.length = secretPolys.length ∧
          ∀ degree ∈ (Instance.mk publicPolys secretPolys blinding).checkedDegrees,
            degree < degreeBound) ∧
      ∀ prover, new? parameters publicPolys secretPolys blinding = .ok prover →
        prover.target = ∑ a ∈ parameters.summation.points,
            ((publicPolys.zip secretPolys).map fun pair =>
              pair.1.toPolynomial.eval a * pair.2.toPolynomial.eval a).sum ∧
          prover.firstMessage.blindingSum =
            ∑ a ∈ parameters.summation.points, blinding.toPolynomial.eval a := by
  obtain ⟨hwf, -, -, rfl, -⟩ := Parameters.wellFormed_of_accepted accepted
  let given : Instance F := ⟨publicPolys, secretPolys, blinding⟩
  have hpositive : 0 < parameters.degreeBound := hwf.fri.degreeBound_pos
  have hanswers : (publicPolys.length = secretPolys.length ∧
      ∀ degree ∈ given.checkedDegrees, degree < parameters.degreeBound) →
        ∃ prover, new? parameters publicPolys secretPolys blinding = .ok prover := fun hbelow =>
    ⟨_, new?_eq_ok hwf ((given.wellFormed_iff hpositive).mpr hbelow)⟩
  obtain ⟨hstarted, hrefused⟩ := outcome_iff hanswers
    (fun _ => new?_eq_error_of_refused) (given.below_or_refused parameters.degreeBound)
  refine ⟨hrefused, fun error herror => ?_, hstarted, fun prover hprover => ?_⟩
  · cases (hrefused _).mp herror
  · obtain ⟨-, rfl⟩ := eq_initial_of_new? hwf hprover
    exact ⟨given.target_eq parameters, rfl⟩

/-- A polynomial with more coefficients than a word over thirty-two points has entries. -/
def longPolynomial : DensePoly BabyBear := .ofCoefficients (Array.replicate 33 1)

theorem accepted_next_to_zero :
    (∃ prover, new? Parameters.twoPoints [longPolynomial] [0] 0 = .ok prover ∧
        prover.target = 0 ∧ prover.firstMessage.blindingSum = 0) ∧
      new? Parameters.twoPoints [longPolynomial] [] 0 = .error (.mismatchedPairs 1 0) := by
  obtain ⟨-, -, hstarted, hsums⟩ := refused_iff Parameters.new?_twoPoints [longPolynomial] [0] 0
  obtain ⟨hrefused, -⟩ := refused_iff Parameters.new?_twoPoints [longPolynomial] [] 0
  have hdegrees : (Instance.mk [longPolynomial] [0] 0).checkedDegrees = [0] := by
    simp [Instance.checkedDegrees, productDegrees, Instance.pairs]
  obtain ⟨prover, hprover⟩ := hstarted.mpr ⟨rfl, by simp [hdegrees]⟩
  obtain ⟨htarget, hblinding⟩ := hsums prover hprover
  refine ⟨⟨prover, hprover, ?_, ?_⟩, (hrefused _).mpr (.unmatched (by decide))⟩
  · simpa using htarget
  · simpa using hblinding

end Prover

end Sumcheck
end OracleProofs

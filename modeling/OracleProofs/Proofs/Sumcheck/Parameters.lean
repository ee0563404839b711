/-
# Accepted parameters of the sumcheck

The low-degree test has a virtual first word, the summation domain is smaller
than the degree bound, and its number of points is invertible.
-/

import Mathlib
import OracleProofs.Proofs.Fri.Parameters
import OracleProofs.Sumcheck.Parameters

namespace OracleProofs
namespace Sumcheck

variable {F : Type} [FiniteField F] [LawfulField F]

namespace Parameters

/-- What the checks of the parameters establish. -/
structure WellFormed (parameters : Parameters F) : Prop where
  fri : parameters.fri.WellFormed
  oracle : parameters.fri.oracle = .virtual
  summation_lt : parameters.summation.size < parameters.degreeBound
  repetitions_pos : 0 < parameters.repetitions
  size_ne_zero : (parameters.summation.size : F) ≠ 0
  sizeInverse : parameters.sizeInverse = (parameters.summation.size : F)⁻¹

/-- Accepted parameters are well formed and keep what they were made from. -/
theorem wellFormed_of_accepted {summationDomain codewordDomain : EvaluationDomain F}
    {degreeBound : ℕ} {localization : List ℕ} {repetitions : ℕ} {parameters : Parameters F}
    (accepted : new? summationDomain codewordDomain degreeBound localization repetitions =
      .ok parameters) :
    parameters.WellFormed ∧ summationDomain = .coset parameters.summation ∧
      codewordDomain = .coset parameters.codewordDomain ∧
      parameters.degreeBound = degreeBound ∧ parameters.repetitions = repetitions := by
  rw [new?] at accepted
  cases summationDomain with
  | subspace space => cases accepted
  | coset summation =>
      simp only [EvaluationDomain.asCoset?, ite_error_eq_ok_iff] at accepted
      obtain ⟨hrepetitions, hbound, accepted⟩ := accepted
      cases hinverse : FiniteField.inverse? (FiniteField.ofNat summation.size : F) with
      | none =>
          rw [hinverse] at accepted
          cases accepted
      | some sizeInverse =>
          simp only [hinverse] at accepted
          obtain ⟨fri, hfri, hresult⟩ := bind_eq_ok_iff.mp accepted
          cases hresult
          obtain ⟨hwf, -, hdomain, -, hdegree⟩ :=
            Fri.Parameters.wellFormed_of_accepted (mapError_eq_ok_iff.mp hfri)
          obtain ⟨hne, hvalue⟩ := FiniteField.inverse?_eq_some_iff.mp hinverse
          rw [FiniteField.ofNat_eq_cast] at hne hvalue
          refine ⟨⟨hwf.withOracle .virtual, rfl, ?_, Nat.pos_of_ne_zero hrepetitions, hne,
            hvalue.symm⟩, rfl, hdomain, hdegree, rfl⟩
          show summation.size < fri.degreeBound
          rw [hdegree]
          exact not_le.mp hbound

theorem WellFormed.sizeInverse_ne_zero {parameters : Parameters F} (wf : parameters.WellFormed) :
    parameters.sizeInverse ≠ 0 := by
  rw [wf.sizeInverse]
  exact inv_ne_zero wf.size_ne_zero

/-- The mean of a sum, added up over all points, is the sum. -/
theorem WellFormed.size_mul_mean {parameters : Parameters F} (wf : parameters.WellFormed)
    (sum : F) : (parameters.summation.size : F) * (sum * parameters.sizeInverse) = sum := by
  rw [wf.sizeInverse, mul_left_comm, mul_inv_cancel₀ wf.size_ne_zero, mul_one]

/-- The entry of a word at a position is the value at its point. -/
theorem getD_wordOf (parameters : Parameters F) (p : Polynomial F) {position : ℕ}
    (inside : position < parameters.codewordLength) (fallback : F) :
    (parameters.codewordDomain.wordOf p).getD position fallback =
      p.eval (parameters.point position) :=
  Coset.getD_wordOf _ _ inside fallback

/-- Sums over two points, of products with at most four coefficients, with words
over thirty-two points and two repetitions. -/
def twoPoints : Parameters BabyBear where
  summation := Fri.Parameters.twoHalvings.finalDomain
  fri := {
    rounds := [⟨Fri.Parameters.thirtyTwoPoints, 1, Fri.Parameters.twoHalvings.finalDomain⟩]
    finalDomain := Fri.Parameters.sixteenPoints
    degreeBound := 4
    oracle := .virtual }
  repetitions := 2
  sizeInverse := (FiniteField.ofNat 2)⁻¹

theorem new?_twoPoints :
    new? (.coset Fri.Parameters.twoHalvings.finalDomain)
      (.coset ⟨5, Residue.ofNat 3, by decide, by decide⟩) 4 [1] 2 = .ok twoPoints := rfl

end Parameters
end Sumcheck
end OracleProofs

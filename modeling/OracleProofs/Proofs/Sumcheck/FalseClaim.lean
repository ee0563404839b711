/-
# The verdict under false claims

The sums that are claimed enter the verdict of an honest proof in one place only:
where a queried leaf of the combined codeword is folded for the first time. A false
target or a false sum of the blinding polynomial is therefore accepted exactly if, in
every repetition and at every query, the error vanishes there.
-/

import Mathlib
import OracleProofs.Proofs.Sumcheck.Completeness

namespace OracleProofs
namespace Sumcheck

open Polynomial

variable {F : Type} [FiniteField F] [LawfulField F]

/-- The proof of an honest run, with any claimed sum of the blinding polynomial, is
accepted at its queries by the verifier for any claimed target if and only if the errors
of the claims are folded to zero in every repetition and at every query. -/
theorem verdict_of_claimed_sums {summationDomain codewordDomain : EvaluationDomain F}
    {degreeBound : ℕ} {localization : List ℕ} {repetitions : ℕ} {parameters : Parameters F}
    (accepted : Parameters.new? summationDomain codewordDomain degreeBound localization
      repetitions = .ok parameters)
    {publicPolys secretPolys : List (DensePoly F)} {blinding : DensePoly F} {prover : Prover F}
    (started : Prover.new? parameters publicPolys secretPolys blinding = .ok prover)
    {batching : List F} {combination : List (Combination F)} {folding : List (List F)}
    {queries : List ℕ} {proof : Proof F}
    (admissible : Admissible parameters batching combination folding queries)
    (answers : prover.Answers batching combination folding queries proof)
    {target blindingSum : F}
    (htarget : target = ∑ a ∈ parameters.summation.points,
      ((publicPolys.zip secretPolys).map fun pair =>
        pair.1.toPolynomial.eval a * pair.2.toPolynomial.eval a).sum)
    (hblindingSum : blindingSum = ∑ a ∈ parameters.summation.points,
      blinding.toPolynomial.eval a)
    (claimedTarget claimedBlindingSum : F) :
    ∃ verdict, (Verifier.new parameters publicPolys claimedTarget).verify
        (proof.withBlindingSum claimedBlindingSum) (.ofRounds batching combination folding)
        queries = .ok verdict ∧
      (verdict = true ↔ ∀ own ∈ Challenges.ofRounds batching combination folding,
        ∀ position ∈ queries,
          foldedError parameters own (claimedTarget - target) (claimedBlindingSum - blindingSum)
            position = 0) := by
  obtain ⟨wf, -⟩ := Parameters.wellFormed_of_accepted accepted
  obtain ⟨hgiven, rfl⟩ := Prover.eq_initial_of_new? wf started
  let given : Instance F := ⟨publicPolys, secretPolys, blinding⟩
  have htrue : target = given.target parameters := by
    rw [htarget, Instance.target]
    apply Finset.sum_congr rfl
    intro a _
    rw [Instance.inner, eval_innerPolynomial]
    rfl
  have hverifier : Verifier.new parameters publicPolys claimedTarget =
      given.verifierFor parameters claimedTarget := given.verifierFor_new parameters claimedTarget
  rw [answers.unique (Prover.answers_initial wf given admissible), hverifier]
  refine ⟨_, Verifier.verify_withBlindingSum wf hgiven
    (Challenges.length_ofRounds admissible.batching admissible.combination) admissible.complete
    admissible.queries claimedTarget claimedBlindingSum queries, ?_⟩
  rw [decide_eq_true_iff, and_iff_right ⟨admissible.queries, rfl⟩, htrue, hblindingSum]
  rfl

/-- The target `23` in the place of `22`: with the right sum `10` of the blinding
polynomial it is refused, and with the sum `7`, which makes up for the error in the only
repetition that sees it, accepted. -/
theorem verdict_of_claimed_target :
    ∃ prover proof, Prover.new? Parameters.twoPoints Instance.linear.publicPolys
        Instance.linear.secretPolys Instance.linear.blinding = .ok prover ∧
      prover.Answers [3, 0] [⟨1, 0, 2, 0⟩, ⟨0, 0, 0, 0⟩] [[5, 5]] [9, 1, 9] proof ∧
      (Verifier.new Parameters.twoPoints Instance.linear.publicPolys 23).verify
          (proof.withBlindingSum 10) (.ofRounds [3, 0] [⟨1, 0, 2, 0⟩, ⟨0, 0, 0, 0⟩] [[5, 5]])
          [9, 1, 9] = .ok false ∧
      (Verifier.new Parameters.twoPoints Instance.linear.publicPolys 23).verify
          (proof.withBlindingSum 7) (.ofRounds [3, 0] [⟨1, 0, 2, 0⟩, ⟨0, 0, 0, 0⟩] [[5, 5]])
          [9, 1, 9] = .ok true := by
  have hwf := (Parameters.wellFormed_of_accepted Parameters.new?_twoPoints).1
  have hstarted := (Prover.new?_eq_ok_iff hwf).mpr ⟨Instance.wellFormed_linear, rfl⟩
  have hadmissible : Admissible Parameters.twoPoints [3, 0] [⟨1, 0, 2, 0⟩, ⟨0, 0, 0, 0⟩]
      [[5, 5]] [9, 1, 9] :=
    { batching := rfl
      combination := rfl
      rounds := rfl
      folding := by decide
      queries := by decide }
  have hanswers := Prover.answers_initial hwf Instance.linear hadmissible
  have htarget : (22 : BabyBear) = ∑ a ∈ Parameters.twoPoints.summation.points,
      ((Instance.linear.publicPolys.zip Instance.linear.secretPolys).map fun pair =>
        pair.1.toPolynomial.eval a * pair.2.toPolynomial.eval a).sum := by
    simp only [← DensePoly.evaluate_eq_eval]
    rw [Coset.sum_points]
    decide +kernel
  have hblindingSum : (10 : BabyBear) = ∑ a ∈ Parameters.twoPoints.summation.points,
      Instance.linear.blinding.toPolynomial.eval a := by
    simp only [← DensePoly.evaluate_eq_eval]
    rw [Coset.sum_points]
    decide +kernel
  obtain ⟨refused, hrefused, hrefusedIff⟩ := verdict_of_claimed_sums Parameters.new?_twoPoints
    hstarted hadmissible hanswers htarget hblindingSum 23 10
  obtain ⟨passed, hpassed, hpassedIff⟩ := verdict_of_claimed_sums Parameters.new?_twoPoints
    hstarted hadmissible hanswers htarget hblindingSum 23 7
  have hrefusedFalse : refused = false := by
    rw [← Bool.not_eq_true, hrefusedIff]
    decide +kernel
  have hpassedTrue : passed = true := hpassedIff.mpr (by decide +kernel)
  rw [hrefusedFalse] at hrefused
  rw [hpassedTrue] at hpassed
  exact ⟨_, _, hstarted, hanswers, hrefused, hpassed⟩

end Sumcheck
end OracleProofs

/-
# The verdict on honest runs

A prover that was accepted answers all challenges and queries, and the verdict on
its proof depends on the queries alone: the verifier accepts at lists of positions
inside the words that reach the same leaves as the queries that were answered, and
at no others. The challenges make no difference, however they were chosen.
-/

import Mathlib
import OracleProofs.Proofs.Sumcheck.Interaction
import OracleProofs.Proofs.Sumcheck.Verifier

namespace OracleProofs
namespace Sumcheck

open Polynomial

variable {F : Type} [FiniteField F] [LawfulField F]

namespace Verifier

/-- The verifier answers at every list of positions, and it accepts if they lie inside
the words and reach exactly the leaves that the queries reach. -/
def AcceptsExactly (verifier : Verifier F) (proof : Proof F) (challenges : Challenges F)
    (queries : List ℕ) : Prop :=
  ∀ others : List ℕ, ∃ verdict, verifier.verify proof challenges others = .ok verdict ∧
    (verdict = true ↔
      (∀ position ∈ others, position < verifier.parameters.codewordLength) ∧
        (others.map (verifier.parameters.fri.leafOf 0)).toFinset =
          (queries.map (verifier.parameters.fri.leafOf 0)).toFinset)

variable {parameters : Parameters F} {given : Instance F} {challenges : Challenges F}
  {queries : List ℕ}

/-- All openings belong to their trees, so only the leaves can be wrong. -/
theorem checkOpenings_honestProof (wf : parameters.WellFormed)
    (hgiven : given.WellFormed parameters.degreeBound)
    (count : challenges.length = parameters.repetitions)
    (inside : ∀ position ∈ queries, position < parameters.codewordLength)
    (target blindingSum : F) (leaves : List ℕ) :
    (given.verifierFor parameters target).checkOpenings
        ((honestProof parameters given challenges queries).withBlindingSum blindingSum) leaves =
      decide (parameters.fri.leavesOf 0 queries = leaves) := by
  let verifier := given.verifierFor parameters target
  let proof := (honestProof parameters given challenges queries).withBlindingSum blindingSum
  have hsecretCount : (given.secretWords parameters).length =
      verifier.publicWords.length + 1 := by
    simp [Instance.secretWords, Instance.verifierFor, verifier, hgiven.matched]
  have hquotientCount : (given.quotientWords parameters challenges).length =
      verifier.parameters.repetitions := by
    rw [Instance.quotientWords, List.length_map, count]
    rfl
  have hsecret : proof.secretOpenings.verifyAgainst proof.firstMessage.secretRoot
      ((verifier.publicWords.length + 1) * verifier.parameters.cosetSize)
      verifier.parameters.treeDepth = true :=
    wf.verifyAgainst_sharedTree hsecretCount inside
  have hquotient : proof.quotientOpenings.verifyAgainst proof.quotientRoot
      (verifier.parameters.repetitions * verifier.parameters.cosetSize)
      verifier.parameters.treeDepth = true :=
    wf.verifyAgainst_sharedTree hquotientCount inside
  have hsecretQueries : proof.secretOpenings.queries = parameters.fri.leavesOf 0 queries := rfl
  have hquotientQueries : proof.quotientOpenings.queries =
      parameters.fri.leavesOf 0 queries := rfl
  rw [checkOpenings, hsecret, hquotient, hsecretQueries, hquotientQueries, Bool.and_true,
    Bool.and_true, Bool.and_self]

/-- At queries whose leaves are opened, all repetitions accept if none of them sees an
error of the claimed sums. -/
theorem checkRepetitions_honestProof (wf : parameters.WellFormed)
    (hgiven : given.WellFormed parameters.degreeBound)
    (complete : ∀ own ∈ challenges, own.folding.length = parameters.fri.roundCount)
    (inside : ∀ position ∈ queries, position < parameters.codewordLength) {others : List ℕ}
    (covers : ∀ position ∈ others, parameters.fri.Covers queries position)
    (target blindingSum : F) :
    Fri.Verifier.allM (fun item =>
        (given.verifierFor parameters target).checkRepetition
          ((honestProof parameters given challenges queries).withBlindingSum blindingSum) others
          (parameters.fri.leavesOf 0 queries)
          ((parameters.fri.leavesOf 0 queries).map (given.openedLeaf parameters)).toArray
          item.2 item.1.1 item.1.2)
        (challenges.zip (honestProof parameters given challenges queries).friProofs).zipIdx =
      .ok (decide (∀ own ∈ challenges, ∀ position ∈ others,
        foldedError parameters own (target - given.target parameters)
          (blindingSum - given.blindingSum parameters) position = 0)) := by
  let passes (own : RepetitionChallenges F) : Bool :=
    decide (∀ position ∈ others, foldedError parameters own (target - given.target parameters)
      (blindingSum - given.blindingSum parameters) position = 0)
  have hcheck : ∀ item ∈
      (challenges.zip (honestProof parameters given challenges queries).friProofs).zipIdx,
      (given.verifierFor parameters target).checkRepetition
        ((honestProof parameters given challenges queries).withBlindingSum blindingSum)
        others (parameters.fri.leavesOf 0 queries)
        ((parameters.fri.leavesOf 0 queries).map (given.openedLeaf parameters)).toArray
        item.2 item.1.1 item.1.2 = .ok (passes item.1.1) := by
    rintro ⟨⟨own, friProof⟩, repetition⟩ hmem
    rw [List.mk_mem_zipIdx_iff_getElem?, List.getElem?_zip_eq_some, honestProof,
      List.getElem?_map] at hmem
    obtain ⟨hown, hproof⟩ := hmem
    simp only at hown hproof
    rw [hown, Option.map_some, Option.some_inj] at hproof
    subst hproof
    exact checkRepetition_honestProof wf hgiven hown (complete own (List.mem_of_getElem? hown))
      inside covers blindingSum
  have hlength : challenges.length ≤
      (honestProof parameters given challenges queries).friProofs.length :=
    (List.length_map _).ge
  have hchallenges : ((challenges.zip
      (honestProof parameters given challenges queries).friProofs).zipIdx.map Prod.fst).map
        Prod.fst = challenges := by
    rw [List.zipIdx_map_fst, List.map_fst_zip hlength]
  have hall : (challenges.zip
      (honestProof parameters given challenges queries).friProofs).zipIdx.all
        (fun item => passes item.1.1) = challenges.all passes := by
    conv_rhs => rw [← hchallenges, List.all_map, List.all_map]
    rfl
  rw [Fri.Verifier.allM_eq_ok hcheck, hall]
  congr 1
  rw [Bool.eq_iff_iff, List.all_eq_true, decide_eq_true_iff]
  simp only [passes, decide_eq_true_iff]

/-- All opened leaves can be read. -/
private theorem openedLeaves_honestProof (wf : parameters.WellFormed)
    (hgiven : given.WellFormed parameters.degreeBound) (challenges : Challenges F)
    (inside : ∀ position ∈ queries, position < parameters.codewordLength) (target : F) :
    ((parameters.fri.leavesOf 0 queries).zip
        (honestProof parameters given challenges queries).secretOpenings.openings).mapM
        (fun pair => (given.verifierFor parameters target).openedLeaf pair.1 pair.2) =
      .ok ((parameters.fri.leavesOf 0 queries).map (given.openedLeaf parameters)) := by
  have hzip : (parameters.fri.leavesOf 0 queries).zip
      (honestProof parameters given challenges queries).secretOpenings.openings =
      (parameters.fri.leavesOf 0 queries).map fun leaf => (leaf,
        (parameters.sharedTree (given.secretWords parameters)).opening leaf) :=
    List.map_prod_left_eq_zip.symm
  rw [hzip, List.mapM_map]
  apply mapM_eq_ok
  intro leaf hmem
  exact openedLeaf_opening wf hgiven (wf.leaf_lt inside hmem)

/-- The verdict on an honest proof under claimed sums. -/
theorem verify_withBlindingSum (wf : parameters.WellFormed)
    (hgiven : given.WellFormed parameters.degreeBound)
    (count : challenges.length = parameters.repetitions)
    (complete : ∀ own ∈ challenges, own.folding.length = parameters.fri.roundCount)
    (inside : ∀ position ∈ queries, position < parameters.codewordLength)
    (target blindingSum : F) (others : List ℕ) :
    (given.verifierFor parameters target).verify
        ((honestProof parameters given challenges queries).withBlindingSum blindingSum)
        challenges others =
      .ok (decide (((∀ position ∈ others, position < parameters.codewordLength) ∧
        parameters.fri.leavesOf 0 queries = parameters.fri.leavesOf 0 others) ∧
        ∀ own ∈ challenges, ∀ position ∈ others,
          foldedError parameters own (target - given.target parameters)
            (blindingSum - given.blindingSum parameters) position = 0)) := by
  have hproofs : (honestProof parameters given challenges queries).friProofs.length =
      parameters.repetitions := (List.length_map _).trans count
  have hparameters : (given.verifierFor parameters target).parameters = parameters := rfl
  have houtside : others.any (fun position => decide (parameters.codewordLength ≤ position)) =
      !decide (∀ position ∈ others, position < parameters.codewordLength) := by
    rw [Bool.eq_iff_iff]
    simp
  simp only [verify, hparameters, count, Proof.friProofs_withBlindingSum, hproofs,
    checkOpenings_honestProof wf hgiven count inside]
  by_cases hinside : ∀ position ∈ others, position < parameters.codewordLength
  · rw [decide_eq_true hinside, Bool.not_true] at houtside
    by_cases hleaves : parameters.fri.leavesOf 0 queries = parameters.fri.leavesOf 0 others
    · have hcovers : ∀ position ∈ others, parameters.fri.Covers queries position := by
        intro position hmem
        rw [Fri.Parameters.covers_iff_mem_leavesOf, hleaves]
        exact ⟨hinside position hmem, Fri.Parameters.mem_leavesOf.mpr ⟨position, hmem, rfl⟩⟩
      have hopened := openedLeaves_honestProof wf hgiven challenges inside target
      have hchecked := checkRepetitions_honestProof wf hgiven complete inside hcovers target
        blindingSum
      simp only [houtside, ← hleaves, Proof.secretOpenings_withBlindingSum, hopened, hchecked,
        ok_bind]
      simpa using fun _ => hinside
    · simp only [houtside, hleaves, ne_eq, not_true_eq_false, decide_false, Bool.or_self,
        Bool.false_eq_true, if_false, Bool.not_false, if_true, and_false, false_and]
      rfl
  · rw [decide_eq_false hinside, Bool.not_false] at houtside
    simp only [houtside, hinside, ne_eq, not_true_eq_false, decide_false, Bool.or_self,
      Bool.false_eq_true, if_false, if_true, false_and]
    rfl

/-- The verdict on an honest proof. -/
theorem verify_honestProof (wf : parameters.WellFormed)
    (hgiven : given.WellFormed parameters.degreeBound)
    (count : challenges.length = parameters.repetitions)
    (complete : ∀ own ∈ challenges, own.folding.length = parameters.fri.roundCount)
    (inside : ∀ position ∈ queries, position < parameters.codewordLength) (others : List ℕ) :
    (given.verifier parameters).verify (honestProof parameters given challenges queries)
        challenges others =
      .ok (decide ((∀ position ∈ others, position < parameters.codewordLength) ∧
        parameters.fri.leavesOf 0 queries = parameters.fri.leavesOf 0 others)) := by
  have hverdict := verify_withBlindingSum wf hgiven count complete inside
    (given.target parameters) (given.blindingSum parameters) others
  simp only [sub_self, foldedError_zero, implies_true, and_true] at hverdict
  exact hverdict

/-- Honest proofs are accepted at the leaves that they open, and at no others. -/
theorem acceptsExactly_honestProof (wf : parameters.WellFormed)
    (hgiven : given.WellFormed parameters.degreeBound)
    (count : challenges.length = parameters.repetitions)
    (complete : ∀ own ∈ challenges, own.folding.length = parameters.fri.roundCount)
    (inside : ∀ position ∈ queries, position < parameters.codewordLength) :
    (given.verifier parameters).AcceptsExactly (honestProof parameters given challenges queries)
      challenges queries := by
  intro others
  refine ⟨_, verify_honestProof wf hgiven count complete inside others, ?_⟩
  rw [decide_eq_true_iff, Fri.Parameters.leavesOf, Fri.Parameters.leavesOf, sortedDistinct_eq_iff,
    Finset.ext_iff]
  simp only [List.mem_toFinset, iff_comm]
  rfl

end Verifier

/-- An accepted prover answers all admissible challenges and queries, with the proof of
an honest run. -/
theorem Prover.answers_initial {parameters : Parameters F} (wf : parameters.WellFormed)
    (given : Instance F) {batching : List F} {combination : List (Combination F)}
    {folding : List (List F)} {queries : List ℕ}
    (admissible : Admissible parameters batching combination folding queries) :
    (initial parameters given).Answers batching combination folding queries
      (honestProof parameters given (.ofRounds batching combination folding) queries) := by
  have hbatching := admissible.batching
  have hcombination := admissible.combination
  have hcount : (Challenges.ofRounds batching combination folding).length =
      parameters.repetitions := Challenges.length_ofRounds hbatching hcombination
  have hcomplete := admissible.complete
  have hcommit := commitQuotients_initial wf given hcount
  have hcombine := combine_committed wf given hcount
  have hfold := foldAll_after wf given hcount hcomplete 0 folding.length
    (by rw [zero_add, admissible.rounds])
  have hquery := query_after wf given hcount hcomplete admissible.queries
  rw [Challenges.map_batching_ofRounds hbatching hcombination] at hcommit
  rw [Challenges.map_combination_ofRounds hbatching hcombination] at hcombine
  rw [← List.range_eq_range', Challenges.map_ofRound_ofRounds hbatching hcombination
    admissible.folding, zero_add, admissible.rounds] at hfold
  exact ⟨_, _, _, _, hcommit, hcombine, hfold, hquery⟩

omit [LawfulField F] in
/-- A run leads to one proof. -/
theorem Prover.Answers.unique {prover : Prover F} {batching : List F}
    {combination : List (Combination F)} {folding : List (List F)} {queries : List ℕ}
    {first second : Proof F} (hfirst : prover.Answers batching combination folding queries first)
    (hsecond : prover.Answers batching combination folding queries second) : first = second := by
  obtain ⟨_, _, _, _, hcommit, hcombine, hfold, hquery⟩ := hfirst
  obtain ⟨_, _, _, _, hcommit', hcombine', hfold', hquery'⟩ := hsecond
  rw [hcommit] at hcommit'
  cases hcommit'
  rw [hcombine] at hcombine'
  cases hcombine'
  rw [hfold] at hfold'
  cases hfold'
  exact Except.ok.inj (hquery.symm.trans hquery')

/-- Every run of an accepted prover succeeds, with any challenges and any queries
inside the words, and in particular with those that a source holds, unless a search for
them never ends. The verifier for the public polynomials, given by coefficients or by values,
and for the sum of the inner product over the summation domain accepts the proof at exactly
the leaves that were queried. -/
theorem acceptsExactly_of_honest_run {summationDomain codewordDomain : EvaluationDomain F}
    {degreeBound : ℕ} {localization : List ℕ} {repetitions : ℕ} {parameters : Parameters F}
    (accepted : Parameters.new? summationDomain codewordDomain degreeBound localization
      repetitions = .ok parameters)
    {publicPolys secretPolys : List (DensePoly F)} {blinding : DensePoly F} {prover : Prover F}
    (started : Prover.new? parameters publicPolys secretPolys blinding = .ok prover)
    {target : F} (sum : target = ∑ a ∈ parameters.summation.points,
      ((publicPolys.zip secretPolys).map fun pair =>
        pair.1.toPolynomial.eval a * pair.2.toPolynomial.eval a).sum) :
    ∃ verifier, verifier = Verifier.new parameters publicPolys target ∧
      Verifier.ofEvaluations? parameters (publicPolys.map fun p =>
        parameters.codewordDomain.valuesOf p.toPolynomial) target = .ok verifier ∧
      (∀ batching combination folding queries,
        Admissible parameters batching combination folding queries →
          ∃ proof, prover.Answers batching combination folding queries proof ∧
            verifier.AcceptsExactly proof (.ofRounds batching combination folding) queries) ∧
      ∀ [Drawable F] {S : Type} [RandomSource S] (source : S) (queryCount : ℕ),
        checkRoom repetitions (4 * FiniteField.width F) = .ok () →
        checkRoom queryCount wordBytes = .ok () →
          verifier.drawRun? queryCount source = .error .endless ∨
          ∃ interaction, (Interaction.run prover verifier queryCount source).1 =
              .ok interaction ∧
            verifier.AcceptsExactly interaction.proof interaction.challenges
              interaction.queries ∧
            verifier.verify interaction.proof interaction.challenges interaction.queries =
              .ok true := by
  obtain ⟨wf, -, -, -, rfl⟩ := Parameters.wellFormed_of_accepted accepted
  let given : Instance F := ⟨publicPolys, secretPolys, blinding⟩
  have hstarted : Prover.new? parameters given.publicPolys given.secretPolys given.blinding =
      .ok prover := started
  obtain ⟨hgiven, rfl⟩ := (Prover.new?_eq_ok_iff wf).mp hstarted
  have htarget : target = given.target parameters := by
    rw [sum, Instance.target]
    apply Finset.sum_congr rfl
    intro a _
    rw [Instance.inner, eval_innerPolynomial]
    rfl
  subst htarget
  have hanswers : ∀ batching combination folding queries,
      Admissible parameters batching combination folding queries →
        ∃ proof, (Prover.initial parameters given).Answers batching combination folding queries
            proof ∧
          (given.verifier parameters).AcceptsExactly proof
            (.ofRounds batching combination folding) queries := by
    intro batching combination folding queries admissible
    refine ⟨_, Prover.answers_initial wf given admissible, ?_⟩
    exact Verifier.acceptsExactly_honestProof wf hgiven
      (Challenges.length_ofRounds admissible.batching admissible.combination) admissible.complete
      admissible.queries
  refine ⟨given.verifier parameters, (given.verifier_new parameters).symm,
    given.verifier_ofEvaluations? parameters, hanswers, ?_⟩
  intro _ S _ source queryCount room queryRoom
  have hdrawing : EndlessOrDrawn ((given.verifier parameters).drawRun? queryCount source) :=
    Verifier.endlessOrDrawn_drawRun? room queryRoom source
  refine hdrawing.eq_error_or_exists.imp_right ?_
  rintro ⟨drawn, hdrawn⟩
  have hadmissible : Admissible parameters drawn.batching drawn.combination drawn.folding
      drawn.queries := Verifier.admissible_of_drawRun? hdrawn
  obtain ⟨proof, hproof, haccepts⟩ := hanswers _ _ _ _ hadmissible
  obtain ⟨verdict, hverify, hverdict⟩ := haccepts drawn.queries
  have haccepted : verdict = true := hverdict.mpr ⟨hadmissible.queries, rfl⟩
  rw [haccepted] at hverify
  exact ⟨_, Interaction.run_eq_ok hdrawn hproof, haccepts, hverify⟩

/-- The product of `2 * X + 1` and `4 * X + 3`, blinded by a constant. -/
def Instance.linear : Instance BabyBear where
  publicPolys := [⟨#[1, 2], by decide⟩]
  secretPolys := [⟨#[3, 4], by decide⟩]
  blinding := ⟨#[5], by decide⟩

theorem Instance.wellFormed_linear : linear.WellFormed 4 where
  matched := rfl
  product_lt := by
    rintro pair hmem
    obtain rfl := List.mem_singleton.mp hmem
    exact (DensePoly.degree_mul_lt _ _).trans_le (by decide)
  blinding_lt := DensePoly.length_le_iff.mp (by decide)

theorem Instance.target_linear : linear.target Parameters.twoPoints = 22 := by
  rw [target_eq]
  simp only [← DensePoly.evaluate_eq_eval]
  rw [Coset.sum_points]
  decide +kernel

/-- Two repetitions over the two points, at which the product sums up to `22`. -/
theorem acceptsExactly_of_two_repetitions :
    ∃ prover proof, Prover.new? Parameters.twoPoints Instance.linear.publicPolys
        Instance.linear.secretPolys Instance.linear.blinding = .ok prover ∧
      prover.Answers [3, 0] [⟨1, 0, 2, 0⟩, ⟨0, 0, 0, 0⟩] [[5, 5]] [9, 1, 9] proof ∧
      (Verifier.new Parameters.twoPoints Instance.linear.publicPolys 22).verify proof
          (.ofRounds [3, 0] [⟨1, 0, 2, 0⟩, ⟨0, 0, 0, 0⟩] [[5, 5]]) [0, 8] = .ok true ∧
      (Verifier.new Parameters.twoPoints Instance.linear.publicPolys 22).verify proof
          (.ofRounds [3, 0] [⟨1, 0, 2, 0⟩, ⟨0, 0, 0, 0⟩] [[5, 5]]) [0] = .ok false := by
  have hwf := (Parameters.wellFormed_of_accepted Parameters.new?_twoPoints).1
  have hstarted := (Prover.new?_eq_ok_iff hwf).mpr ⟨Instance.wellFormed_linear, rfl⟩
  have hsum : (22 : BabyBear) = ∑ a ∈ Parameters.twoPoints.summation.points,
      ((Instance.linear.publicPolys.zip Instance.linear.secretPolys).map fun pair =>
        pair.1.toPolynomial.eval a * pair.2.toPolynomial.eval a).sum := by
    simp only [← DensePoly.evaluate_eq_eval]
    rw [Coset.sum_points]
    decide +kernel
  have hadmissible : Admissible Parameters.twoPoints [3, 0] [⟨1, 0, 2, 0⟩, ⟨0, 0, 0, 0⟩]
      [[5, 5]] [9, 1, 9] :=
    { batching := rfl
      combination := rfl
      rounds := rfl
      folding := by decide
      queries := by decide }
  obtain ⟨verifier, rfl, -, hanswers, -⟩ :=
    acceptsExactly_of_honest_run Parameters.new?_twoPoints hstarted hsum
  obtain ⟨proof, hproof, haccepts⟩ := hanswers _ _ _ _ hadmissible
  obtain ⟨yes, hyes, hyesIff⟩ := haccepts [0, 8]
  obtain ⟨no, hno, hnoIff⟩ := haccepts [0]
  have hyesTrue : yes = true := hyesIff.mpr (by decide)
  have hnoFalse : no = false := by
    rw [← Bool.not_eq_true, hnoIff]
    decide
  rw [hyesTrue] at hyes
  rw [hnoFalse] at hno
  exact ⟨_, proof, hstarted, hproof, hyes, hno⟩

end Sumcheck
end OracleProofs

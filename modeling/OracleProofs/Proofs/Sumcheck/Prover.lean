/-
# The honest run of the prover

An accepted prover holds the words of its polynomials and their sums. Committing
the quotients, combining and folding round by round never fails if there is one
challenge per repetition, and each step leads to a state that the challenges so
far describe: every repetition runs the low-degree test on the word of its own
combined polynomial. After the last round the queries are answered.
-/

import Mathlib
import OracleProofs.Proofs.Sumcheck.Challenges
import OracleProofs.Proofs.Sumcheck.Instance
import OracleProofs.Proofs.Sumcheck.Layout

namespace OracleProofs
namespace Sumcheck

open Polynomial

variable {F : Type} [FiniteField F] [LawfulField F]

theorem Parameters.codeword_eq (parameters : Parameters F) :
    parameters.codeword = fun p => parameters.codewordDomain.wordOf p.toPolynomial := by
  funext p
  rw [codeword, Coset.evaluateAll_eq_valuesOf, Coset.reverseOrder_valuesOf]
  rfl

/-- The field has room for the coefficients of every polynomial below the bound. -/
theorem Parameters.WellFormed.sum?_eq {parameters : Parameters F} (wf : parameters.WellFormed)
    {p : DensePoly F} (hdegree : p.toPolynomial.degree < parameters.degreeBound) :
    parameters.summation.sum? p =
      .ok (∑ a ∈ parameters.summation.points, p.toPolynomial.eval a) := by
  apply Coset.sum?_eq
  refine le_trans ?_ parameters.codewordDomain.dimension_le
  rw [ceilLog2_le_iff, ← Coset.size_eq]
  exact (DensePoly.length_le_iff.mpr hdegree).trans wf.fri.degreeBound_le

/-- The word of the inner product is computed entry by entry. -/
theorem foldl_zipWith_wordOf (domain : Coset F) (pairs : List (DensePoly F × DensePoly F))
    (start : F[X]) :
    (pairs.map fun pair =>
        (domain.wordOf pair.1.toPolynomial, domain.wordOf pair.2.toPolynomial)).foldl
        (fun sum pair => Array.zipWith (· + ·) sum (Array.zipWith (· * ·) pair.1 pair.2))
        (domain.wordOf start) =
      domain.wordOf (start + innerPolynomial pairs) := by
  induction pairs generalizing start with
  | nil => simp [innerPolynomial]
  | cons pair rest ih =>
      have hproduct := domain.zipWith_wordOf (· * ·) fun a =>
        (eval_mul : (pair.1.toPolynomial * pair.2.toPolynomial).eval a = _)
      have hsum := domain.zipWith_wordOf (· + ·) fun a =>
        (eval_add : (start + pair.1.toPolynomial * pair.2.toPolynomial).eval a = _)
      rw [List.map_cons, List.foldl_cons]
      simp only [hproduct, hsum, ih]
      simp [innerPolynomial, add_assoc]

namespace Instance

variable (given : Instance F) (parameters : Parameters F)

/-- The committed words of the secret polynomials, the blinding polynomial last. -/
noncomputable def secretWords : List (Array F) :=
  (given.secretPolys ++ [given.blinding]).map fun p =>
    parameters.codewordDomain.wordOf p.toPolynomial

/-- The committed words of the quotients, one per repetition. -/
noncomputable def quotientWords (challenges : Challenges F) : List (Array F) :=
  challenges.map fun own =>
    parameters.codewordDomain.wordOf (given.quotient parameters own.batching)

variable {given parameters}

theorem commitWords?_secretWords (wf : parameters.WellFormed) (given : Instance F) :
    Prover.commitWords? parameters (given.secretWords parameters) =
      .ok (parameters.sharedTree (given.secretWords parameters)) := by
  apply wf.commitWords?_eq_ok
  · simp [secretWords]
  · intro word hmem
    obtain ⟨p, -, rfl⟩ := List.mem_map.mp hmem
    exact Coset.size_wordOf _ _

theorem commitWords?_quotientWords (wf : parameters.WellFormed) (given : Instance F)
    {challenges : Challenges F} (count : challenges.length = parameters.repetitions) :
    Prover.commitWords? parameters (given.quotientWords parameters challenges) =
      .ok (parameters.sharedTree (given.quotientWords parameters challenges)) := by
  apply wf.commitWords?_eq_ok
  · intro hnil
    have hzero := List.map_eq_nil_iff.mp hnil
    rw [hzero] at count
    exact wf.repetitions_pos.ne count
  · intro word hmem
    obtain ⟨own, -, rfl⟩ := List.mem_map.mp hmem
    exact Coset.size_wordOf _ _

end Instance

namespace Prover

section States

variable (parameters : Parameters F) (given : Instance F)

/-- The state before any challenge. -/
noncomputable def initial : Prover F where
  parameters
  publicWords := given.publicPolys.map fun p => parameters.codewordDomain.wordOf p.toPolynomial
  secretWords := given.secretPolys.map fun p => parameters.codewordDomain.wordOf p.toPolynomial
  blindingWord := parameters.codewordDomain.wordOf given.blinding.toPolynomial
  innerQuotient := (parameters.vanishing.divide (innerProduct given.pairs)).quotient
  blindingQuotient := (parameters.vanishing.divide given.blinding).quotient
  target := given.target parameters
  blindingSum := given.blindingSum parameters
  secretTree := parameters.sharedTree (given.secretWords parameters)
  quotients? := none
  friProvers := []

/-- The committed quotients. -/
noncomputable def quotientsOf (challenges : Challenges F) : QuotientRound F where
  batching := challenges.map RepetitionChallenges.batching
  words := given.quotientWords parameters challenges
  tree := parameters.sharedTree (given.quotientWords parameters challenges)

/-- The state once the quotients are committed. -/
noncomputable def committed (challenges : Challenges F) : Prover F :=
  { initial parameters given with quotients? := some (quotientsOf parameters given challenges) }

/-- The state once the words are combined and some rounds are folded. -/
noncomputable def after (challenges : Challenges F) (rounds : ℕ) : Prover F :=
  { committed parameters given challenges with
    friProvers := challenges.map fun own =>
      Fri.Prover.after parameters.fri (given.combined parameters own) (own.folding.take rounds) }

end States

variable {parameters : Parameters F} {given : Instance F}

/-- A prover for polynomials of low degree is in the initial state. -/
theorem new?_eq_ok (wf : parameters.WellFormed)
    (hgiven : given.WellFormed parameters.degreeBound) :
    new? parameters given.publicPolys given.secretPolys given.blinding =
      .ok (initial parameters given) := by
  have hinner : parameters.summation.sum? (innerProduct given.pairs) =
      .ok (given.target parameters) := by
    have hvalue := wf.sum?_eq (p := innerProduct given.pairs)
    rw [toPolynomial_innerProduct] at hvalue
    exact hvalue hgiven.inner_lt
  have hcommit : commitWords? parameters
      ((given.secretPolys.map fun p => parameters.codewordDomain.wordOf p.toPolynomial) ++
        [parameters.codewordDomain.wordOf given.blinding.toPolynomial]) =
      .ok (parameters.sharedTree (given.secretWords parameters)) := by
    rw [← Instance.commitWords?_secretWords wf given, Instance.secretWords, List.map_append,
      List.map_singleton]
  have hpairs := checkPairs_eq_ok_iff.mpr hgiven.product_lt
  have hpositive : 0 < parameters.degreeBound := wf.fri.degreeBound_pos
  have hblinding := (checkDegree_toPolynomial_iff hpositive _).mpr hgiven.blinding_lt
  rw [Instance.pairs] at hinner hpairs
  rw [new?, if_neg (not_not.mpr hgiven.matched)]
  simp only [hpairs, hblinding, hinner, wf.sum?_eq hgiven.blinding_lt, parameters.codeword_eq,
    hcommit, mapError_ok, ok_bind]
  rfl

/-- Polynomials are accepted if they are of low degree, and the prover is then in the
initial state. -/
theorem new?_eq_ok_iff (wf : parameters.WellFormed) {prover : Prover F} :
    new? parameters given.publicPolys given.secretPolys given.blinding = .ok prover ↔
      given.WellFormed parameters.degreeBound ∧ prover = initial parameters given := by
  constructor
  · intro accepted
    have hgiven : given.WellFormed parameters.degreeBound := by
      have hchecks := accepted
      rw [new?] at hchecks
      simp only [ite_error_eq_ok_iff] at hchecks
      obtain ⟨hmatched, hchecks⟩ := hchecks
      obtain ⟨_, hpairs, hchecks⟩ := bind_eq_ok_iff.mp hchecks
      obtain ⟨_, hblinding, -⟩ := bind_eq_ok_iff.mp hchecks
      exact ⟨not_not.mp hmatched, checkPairs_eq_ok_iff.mp hpairs,
        (checkDegree_toPolynomial_iff wf.fri.degreeBound_pos _).mp hblinding⟩
    rw [new?_eq_ok wf hgiven] at accepted
    exact ⟨hgiven, (Except.ok.inj accepted).symm⟩
  · rintro ⟨hgiven, rfl⟩
    exact new?_eq_ok wf hgiven

/-- An accepted prover is in the initial state for what it was started with. -/
theorem eq_initial_of_new? (wf : parameters.WellFormed)
    {publicPolys secretPolys : List (DensePoly F)} {blinding : DensePoly F} {prover : Prover F}
    (started : new? parameters publicPolys secretPolys blinding = .ok prover) :
    (Instance.mk publicPolys secretPolys blinding).WellFormed parameters.degreeBound ∧
      prover = initial parameters (.mk publicPolys secretPolys blinding) := by
  let given : Instance F := ⟨publicPolys, secretPolys, blinding⟩
  have hstarted : new? parameters given.publicPolys given.secretPolys given.blinding =
      .ok prover := started
  exact (new?_eq_ok_iff wf).mp hstarted

omit [LawfulField F] in
theorem checkRepetitions_eq_ok {prover : Prover F} {found : ℕ}
    (count : found = prover.parameters.repetitions) : prover.checkRepetitions found = .ok () := by
  rw [checkRepetitions, if_neg (not_not.mpr count)]

theorem quotientWord_initial (parameters : Parameters F) (given : Instance F) (batching : F) :
    (initial parameters given).quotientWord batching =
      parameters.codewordDomain.wordOf (given.quotient parameters batching) := by
  rw [quotientWord, Parameters.codeword_eq]
  beta_reduce
  rw [DensePoly.toPolynomial_add, DensePoly.toPolynomial_scale]
  rfl

/-- The quotients are committed if there is one challenge per repetition, whatever was
answered before. -/
theorem commitQuotients_restarted (wf : parameters.WellFormed) (given : Instance F)
    (quotients? : Option (QuotientRound F)) (friProvers : List (Fri.Prover F))
    {challenges : Challenges F} (count : challenges.length = parameters.repetitions) :
    Prover.commitQuotients { initial parameters given with quotients?, friProvers }
        (challenges.map RepetitionChallenges.batching) =
      (.ok (parameters.sharedTree (given.quotientWords parameters challenges)).root,
        committed parameters given challenges) := by
  let prover : Prover F := { initial parameters given with quotients?, friProvers }
  have hwords : (challenges.map RepetitionChallenges.batching).map prover.quotientWord =
      given.quotientWords parameters challenges := by
    rw [List.map_map]
    apply List.map_congr_left
    intro own _
    exact quotientWord_initial parameters given own.batching
  have hround : prover.quotientRound? (challenges.map RepetitionChallenges.batching) =
      .ok (quotientsOf parameters given challenges) := by
    rw [quotientRound?, checkRepetitions_eq_ok ((List.length_map _).trans count), ok_bind]
    simp only [hwords]
    show (commitWords? parameters _ >>= _) = _
    rw [Instance.commitWords?_quotientWords wf given count]
    rfl
  rw [commitQuotients, hround]
  rfl

theorem commitQuotients_initial (wf : parameters.WellFormed) (given : Instance F)
    {challenges : Challenges F} (count : challenges.length = parameters.repetitions) :
    (initial parameters given).commitQuotients (challenges.map RepetitionChallenges.batching) =
      (.ok (parameters.sharedTree (given.quotientWords parameters challenges)).root,
        committed parameters given challenges) :=
  commitQuotients_restarted wf given none [] count

theorem innerWord_initial (parameters : Parameters F) (given : Instance F) :
    (initial parameters given).innerWord = parameters.codewordDomain.wordOf given.inner := by
  have hzero : Array.replicate parameters.codewordLength (0 : F) =
      parameters.codewordDomain.wordOf 0 := by
    apply Array.ext
    · rw [Array.size_replicate, Coset.size_wordOf]
      rfl
    · intro position hleft hright
      simp [Coset.wordOf]
  have hzip : (initial parameters given).publicWords.zip
      (initial parameters given).secretWords = given.pairs.map fun pair =>
        (parameters.codewordDomain.wordOf pair.1.toPolynomial,
          parameters.codewordDomain.wordOf pair.2.toPolynomial) :=
    List.zip_map
  have hfold := foldl_zipWith_wordOf parameters.codewordDomain given.pairs 0
  rw [← hzero, zero_add] at hfold
  rw [innerWord, hzip]
  exact hfold

/-- A combined word is computed point by point, whatever the rule and the quotient. -/
theorem combinedWord_initial (parameters : Parameters F) (given : Instance F)
    (rule : CombinationRule F) (quotient : Array F) :
    (initial parameters given).combinedWord
        (Array.ofFn fun position : Fin parameters.codewordLength =>
          PointFactors.ofPosition parameters position)
        (initial parameters given).innerWord rule quotient =
      Sumcheck.combinedWord parameters rule given.inner given.blinding.toPolynomial quotient := by
  rw [innerWord_initial]
  apply Array.ext
  · simp [combinedWord, Sumcheck.combinedWord]
  · intro position hleft hright
    have hinside : position < parameters.codewordLength := by
      rwa [Sumcheck.combinedWord, Array.size_ofFn] at hright
    simp only [combinedWord, Sumcheck.combinedWord, Fin.getElem_fin, Array.getElem_ofFn, initial,
      parameters.getD_wordOf _ hinside]

/-- The words are combined if there is one challenge per repetition, and every
repetition starts from the word of its combined polynomial, whatever was folded before. -/
theorem combine_restarted (wf : parameters.WellFormed) (given : Instance F)
    (friProvers : List (Fri.Prover F)) {challenges : Challenges F}
    (count : challenges.length = parameters.repetitions) :
    Prover.combine { committed parameters given challenges with friProvers }
        (challenges.map RepetitionChallenges.combination) =
      (.ok (), after parameters given challenges 0) := by
  let prover : Prover F := { committed parameters given challenges with friProvers }
  have hwords : (committed parameters given challenges).combinedWords
      (quotientsOf parameters given challenges)
      (challenges.map RepetitionChallenges.combination) = challenges.map fun own =>
        parameters.codewordDomain.wordOf (given.combined parameters own) := by
    simp only [combinedWords, quotientsOf, Instance.quotientWords]
    rw [List.zip_map', List.zip_map', List.map_map]
    apply List.map_congr_left
    intro own _
    rw [← given.combinedWord_eq wf]
    exact combinedWord_initial parameters given (given.rule parameters own) _
  have hstart : (challenges.map fun own =>
      parameters.codewordDomain.wordOf (given.combined parameters own)).mapM
        (Fri.Prover.ofBitReversed? parameters.fri) = .ok (challenges.map fun own =>
          Fri.Prover.after parameters.fri (given.combined parameters own) []) := by
    rw [List.mapM_map]
    apply mapM_eq_ok
    intro own _
    exact Fri.Prover.ofBitReversed?_wordOf wf.fri _
  have hcombined : prover.combined? (challenges.map RepetitionChallenges.combination) =
      .ok (challenges.map fun own =>
        Fri.Prover.after parameters.fri (given.combined parameters own) []) := by
    have hquotients : prover.quotients? = some (quotientsOf parameters given challenges) := rfl
    have hsame : prover.combinedWords = (committed parameters given challenges).combinedWords :=
      rfl
    simp only [combined?, hquotients]
    rw [checkRepetitions_eq_ok ((List.length_map _).trans count), ok_bind, hsame, hwords]
    exact congrArg (Except.mapError SumcheckError.fri) hstart
  rw [combine, hcombined]
  rfl

theorem combine_committed (wf : parameters.WellFormed) (given : Instance F)
    {challenges : Challenges F} (count : challenges.length = parameters.repetitions) :
    (committed parameters given challenges).combine
        (challenges.map RepetitionChallenges.combination) =
      (.ok (), after parameters given challenges 0) :=
  combine_restarted wf given [] count

section Folding

variable {challenges : Challenges F}

theorem friProvers_after_isEmpty (wf : parameters.WellFormed) (given : Instance F)
    (count : challenges.length = parameters.repetitions) (rounds : ℕ) :
    (after parameters given challenges rounds).friProvers.isEmpty = false := by
  rw [List.isEmpty_eq_false_iff, ← List.length_pos_iff]
  show 0 < (challenges.map _).length
  rw [List.length_map, count]
  exact wf.repetitions_pos

/-- A round is folded in all repetitions if there is one challenge for each. -/
theorem foldRound_after (wf : parameters.WellFormed) (given : Instance F)
    (count : challenges.length = parameters.repetitions) {round : ℕ}
    (drawn : ∀ own ∈ challenges, round < own.folding.length)
    (pending : round < parameters.fri.roundCount) :
    ∃ messages, (after parameters given challenges round).foldRound round
        (challenges.ofRound round) =
      (.ok messages, after parameters given challenges (round + 1)) := by
  have hanswers : List.zipWith (fun fri challenge => Fri.Prover.foldRound fri round challenge)
      (after parameters given challenges round).friProvers (challenges.ofRound round) =
      challenges.map fun own => (Fri.Prover.after parameters.fri (given.combined parameters own)
        (own.folding.take round)).foldRound round (own.folding.getD round 0) := by
    simp only [after, Challenges.ofRound]
    rw [List.zipWith_map, List.zipWith_self]
  obtain ⟨messages, hmessages⟩ : ∃ messages, (challenges.map fun own =>
      (Fri.Prover.after parameters.fri (given.combined parameters own)
        (own.folding.take round)).foldRound round (own.folding.getD round 0)).mapM Prod.fst =
      .ok messages := by
    rw [List.mapM_map]
    apply exists_mapM_eq_ok
    intro own hmem
    obtain ⟨message, hfold⟩ := Fri.Prover.foldRound_take wf.fri
      (given.combined parameters own) (drawn own hmem) pending
    exact ⟨message, congrArg Prod.fst hfold⟩
  have hcheck : (after parameters given challenges round).checkFolding
      (challenges.ofRound round).length = .ok () := by
    have hrepetitions : (challenges.ofRound round).length =
        (after parameters given challenges round).parameters.repetitions :=
      (List.length_map _).trans count
    rw [checkFolding, friProvers_after_isEmpty wf given count]
    exact checkRepetitions_eq_ok hrepetitions
  have hprovers : challenges.map (Prod.snd ∘ fun own =>
      (Fri.Prover.after parameters.fri (given.combined parameters own)
        (own.folding.take round)).foldRound round (own.folding.getD round 0)) =
      (after parameters given challenges (round + 1)).friProvers := by
    apply List.map_congr_left
    intro own hmem
    obtain ⟨message, hfold⟩ := Fri.Prover.foldRound_take wf.fri
      (given.combined parameters own) (drawn own hmem) pending
    exact congrArg Prod.snd hfold
  refine ⟨messages, ?_⟩
  simp only [foldRound, hcheck, hanswers, hmessages, mapError_ok, List.map_map, hprovers]
  rfl

/-- Folds rounds from `round` on, each with one challenge per repetition, until one
fails. -/
def foldAll (prover : Prover F) (round : ℕ) : List (List F) → Except SumcheckError Unit × Prover F
  | [] => (.ok (), prover)
  | challenges :: rest =>
      match prover.foldRound round challenges with
      | (.ok _, prover) => prover.foldAll (round + 1) rest
      | (.error error, prover) => (.error error, prover)

/-- Folding any number of rounds that are left leads to the state after them. -/
theorem foldAll_after (wf : parameters.WellFormed) (given : Instance F)
    (count : challenges.length = parameters.repetitions)
    (complete : ∀ own ∈ challenges, own.folding.length = parameters.fri.roundCount)
    (round rest : ℕ) (room : round + rest ≤ parameters.fri.roundCount) :
    (after parameters given challenges round).foldAll round
        ((List.range' round rest).map challenges.ofRound) =
      (.ok (), after parameters given challenges (round + rest)) := by
  induction rest generalizing round with
  | zero => rfl
  | succ rest ih =>
      have hpending : round < parameters.fri.roundCount := by omega
      obtain ⟨messages, hstep⟩ := foldRound_after wf given count
        (fun own hmem => (complete own hmem).symm ▸ hpending) hpending
      rw [List.range'_succ, List.map_cons, foldAll, hstep]
      show (after parameters given challenges (round + 1)).foldAll (round + 1) _ = _
      rw [ih (round + 1) (by omega), add_right_comm, add_assoc]

end Folding

end Prover

/-- The proof with another claimed sum of the blinding polynomial. -/
def Proof.withBlindingSum (proof : Proof F) (blindingSum : F) : Proof F :=
  { proof with firstMessage := { proof.firstMessage with blindingSum } }

omit [FiniteField F] [LawfulField F] in
@[simp]
theorem Proof.secretOpenings_withBlindingSum (proof : Proof F) (blindingSum : F) :
    (proof.withBlindingSum blindingSum).secretOpenings = proof.secretOpenings := rfl

omit [FiniteField F] [LawfulField F] in
@[simp]
theorem Proof.friProofs_withBlindingSum (proof : Proof F) (blindingSum : F) :
    (proof.withBlindingSum blindingSum).friProofs = proof.friProofs := rfl

/-- The proof of an honest run. -/
noncomputable def honestProof (parameters : Parameters F) (given : Instance F)
    (challenges : Challenges F) (queries : List ℕ) : Proof F where
  firstMessage := (Prover.initial parameters given).firstMessage
  quotientRoot := (parameters.sharedTree (given.quotientWords parameters challenges)).root
  secretOpenings := .ofLeaves (parameters.sharedTree (given.secretWords parameters))
    (parameters.fri.leavesOf 0 queries)
  quotientOpenings := .ofLeaves (parameters.sharedTree (given.quotientWords parameters challenges))
    (parameters.fri.leavesOf 0 queries)
  friProofs := challenges.map fun own =>
    Fri.honestProof parameters.fri (given.combined parameters own) own.folding queries

namespace Prover

/-- Once all rounds are folded, queries inside the words are answered. -/
theorem query_after {parameters : Parameters F} (wf : parameters.WellFormed) (given : Instance F)
    {challenges : Challenges F} (count : challenges.length = parameters.repetitions)
    (complete : ∀ own ∈ challenges, own.folding.length = parameters.fri.roundCount)
    {queries : List ℕ} (inside : ∀ position ∈ queries, position < parameters.codewordLength) :
    (after parameters given challenges parameters.fri.roundCount).query queries =
      .ok (honestProof parameters given challenges queries) := by
  have hfind := Fri.find?_le_eq_none inside
  have hproofs : (after parameters given challenges parameters.fri.roundCount).friProvers.mapM
      (fun fri => fri.query queries) =
      .ok (honestProof parameters given challenges queries).friProofs := by
    simp only [after]
    rw [List.mapM_map]
    apply mapM_eq_ok
    intro own hmem
    show (Fri.Prover.after parameters.fri _ (own.folding.take _)).query queries = _
    rw [List.take_of_length_le (complete own hmem).le]
    exact Fri.Prover.query_after wf.fri (complete own hmem) inside
  have hquotients : (after parameters given challenges parameters.fri.roundCount).quotients? =
      some (quotientsOf parameters given challenges) := rfl
  have hlength : (after parameters given challenges
      parameters.fri.roundCount).parameters.codewordLength = parameters.codewordLength := rfl
  have hsecret : Merkle.Batch.ofTree?
      (after parameters given challenges parameters.fri.roundCount).secretTree
      ((after parameters given challenges parameters.fri.roundCount).parameters.fri.leavesOf 0
        queries) = .ok (honestProof parameters given challenges queries).secretOpenings :=
    wf.ofTree?_sharedTree _ inside
  have hquotient : Merkle.Batch.ofTree? (quotientsOf parameters given challenges).tree
      ((after parameters given challenges parameters.fri.roundCount).parameters.fri.leavesOf 0
        queries) = .ok (honestProof parameters given challenges queries).quotientOpenings :=
    wf.ofTree?_sharedTree _ inside
  simp only [query, hquotients, friProvers_after_isEmpty wf given count, hlength, hfind]
  rw [hproofs, mapError_ok, ok_bind, if_neg Bool.false_ne_true, hsecret, mapError_ok, ok_bind,
    hquotient, mapError_ok, ok_bind]
  rfl

end Prover
end Sumcheck
end OracleProofs

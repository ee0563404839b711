/-
# Committed and virtual first words

A committed first word is read through the first layer of a proof, a virtual one
from leaves that are given. The two differ in nothing else: a proof about a
committed word is accepted exactly if its first layer is authentic and opens the
leaf of every position, and the layers behind it are accepted about a virtual word
with these leaves.
-/

import Mathlib
import OracleProofs.Proofs.Fri.FullQuery

namespace OracleProofs
namespace Fri

open Polynomial

variable {F : Type} [FiniteField F]

/-- Every item has a partner if a list of partners stands beside the items. -/
theorem forall_exists_and_iff_forall₂ {α β : Type} {related accepted : α → β → Prop}
    {items : List α} :
    (∀ item ∈ items, ∃ partner, related item partner ∧ accepted item partner) ↔
      ∃ partners, List.Forall₂ related items partners ∧
        ∀ pair ∈ items.zip partners, accepted pair.1 pair.2 := by
  induction items with
  | nil =>
      constructor
      · intro _
        exact ⟨[], .nil, by simp⟩
      · intro _ item hmem
        cases hmem
  | cons first rest ih =>
      rw [List.forall_mem_cons, ih]
      constructor
      · rintro ⟨⟨partner, hrelated, haccepted⟩, partners, hrest, hpairs⟩
        refine ⟨partner :: partners, .cons hrelated hrest, ?_⟩
        rw [List.zip_cons_cons, List.forall_mem_cons]
        exact ⟨haccepted, hpairs⟩
      · rintro ⟨_, hall, hpairs⟩
        cases hall with
        | cons hrelated hrest =>
            rw [List.zip_cons_cons, List.forall_mem_cons] at hpairs
            exact ⟨⟨_, hrelated, hpairs.1⟩, _, hrest, hpairs.2⟩

omit [FiniteField F] in
/-- In a layer that lists its openings in order, the leaf that is shown at an index is
the one that is opened there. -/
theorem LayerProof.leaf?_eq_some_iff {layer : LayerProof F}
    (sorted : (layer.openings.map Merkle.Opening.index).Pairwise (· < ·)) {leaf : ℕ}
    {values : Array F} :
    layer.leaf? leaf = some values ↔
      ∃ opening ∈ layer.openings, opening.index = leaf ∧ opening.values = values := by
  refine ⟨exists_opening_of_leaf?, ?_⟩
  rintro ⟨opening, hmem, rfl, rfl⟩
  cases hshown : layer.leaf? opening.index with
  | none =>
      rw [leaf?, Option.map_eq_none_iff, List.find?_eq_none] at hshown
      exact absurd (decide_eq_true rfl) (hshown opening hmem)
  | some values =>
      obtain ⟨other, hother, hindex, rfl⟩ := exists_opening_of_leaf? hshown
      have hdistinct := List.inj_on_of_nodup_map (sorted.imp ne_of_lt) hother hmem hindex
      rw [hdistinct]

namespace Verifier

/-- A query goes on in the same way wherever its leaf was read. -/
theorem followQuery_congr {round : Round F} {challenge : F} {steps : List (Round F × F)}
    {last : Coset F} {finalPolynomial : Array F} {given? other? : Option (Array F)}
    {layers others : List (LayerProof F)} {expected? : Option F} {position : ℕ}
    (hread : readLeaf given? layers (position / round.cosetSize) =
      readLeaf other? others (position / round.cosetSize)) :
    followQuery last finalPolynomial ((round, challenge) :: steps) layers given? expected?
        position =
      followQuery last finalPolynomial ((round, challenge) :: steps) others other? expected?
        position := by
  simp only [followQuery, hread]

/-- What an accepted proof about a virtual word passed. -/
theorem verifyGiven_eq_ok_true_iff {parameters : Parameters F} {proof : Proof F}
    {challenges : List F} {positions : List ℕ} {given : List (Array F)} :
    verifyGiven (parameters.withOracle .virtual) proof challenges positions given = .ok true ↔
      given.length = positions.length ∧ challenges.length = parameters.roundCount ∧
        proof.layers.length = parameters.roundCount - 1 ∧
        checkLayers 1 (parameters.rounds.drop 1) proof.layers = true ∧
        proof.finalPolynomial.size ≤ parameters.finalDegreeBound ∧
        ∀ query ∈ positions.zip given,
          checkQuery parameters proof challenges (some query.2) query.1 = .ok true := by
  simp only [verifyGiven, Parameters.withOracle, ite_refused_eq_ok_true_iff, not_not]
  rw [check_eq_ok_true_iff]
  rfl

/-- A position of a committed word is accepted if its leaf is shown and accepted as the
leaf of a virtual word. -/
theorem checkQuery_cons_iff {parameters : Parameters F} {round : Round F}
    {rounds : List (Round F)} (hrounds : parameters.rounds = round :: rounds)
    {first : LayerProof F} {rest : List (LayerProof F)} {finalPolynomial : Array F}
    {challenges : List F} (count : challenges.length = parameters.roundCount) {position : ℕ} :
    checkQuery parameters ⟨first :: rest, finalPolynomial⟩ challenges none position = .ok true ↔
      ∃ values, first.leaf? (position / round.cosetSize) = some values ∧
        checkQuery parameters ⟨rest, finalPolynomial⟩ challenges (some values) position =
          .ok true := by
  rw [Parameters.roundCount, hrounds] at count
  obtain ⟨challenge, challenges, rfl⟩ := List.exists_cons_of_length_eq_add_one count
  simp only [checkQuery, hrounds, List.zip_cons_cons, ite_refused_eq_ok_true_iff]
  constructor
  · rintro ⟨hinside, hfollowed⟩
    obtain ⟨values, hshown, -, -⟩ := leaf_of_followQuery hfollowed
    refine ⟨values, hshown, hinside, ?_⟩
    rw [← hfollowed]
    exact followQuery_congr (by rw [readLeaf, readLeaf, hshown])
  · rintro ⟨values, hshown, hinside, hfollowed⟩
    refine ⟨hinside, ?_⟩
    rw [← hfollowed]
    exact followQuery_congr (by rw [readLeaf, readLeaf, hshown])

/-- The first layer of an accepted proof about a committed word is authentic and shows the
leaves with which the other layers are accepted about a virtual word. -/
theorem verify_cons_iff {parameters : Parameters F} (committed : parameters.oracle = .committed)
    {round : Round F} {rounds : List (Round F)} (hrounds : parameters.rounds = round :: rounds)
    {first : LayerProof F} {rest : List (LayerProof F)} {finalPolynomial : Array F}
    {challenges : List F} {positions : List ℕ} :
    verify parameters ⟨first :: rest, finalPolynomial⟩ challenges positions = .ok true ↔
      checkLayer 0 round first = true ∧ ∃ given,
        List.Forall₂ (fun position values =>
          first.leaf? (position / round.cosetSize) = some values) positions given ∧
        verifyGiven (parameters.withOracle .virtual) ⟨rest, finalPolynomial⟩ challenges positions
          given = .ok true := by
  have hcount : parameters.roundCount = rounds.length + 1 := by
    rw [Parameters.roundCount, hrounds, List.length_cons]
  constructor
  · intro verified
    obtain ⟨hchallenges, hlayers, hchecked, hshort, hqueries⟩ :=
      (verify_eq_ok_true_iff committed).mp verified
    have hrest : rest.length = parameters.roundCount - 1 := by
      rw [← hlayers, List.length_cons, Nat.add_sub_cancel]
    rw [hrounds, checkLayers, Bool.and_eq_true] at hchecked
    simp only [checkQuery_cons_iff hrounds hchallenges] at hqueries
    obtain ⟨given, hgiven, hpairs⟩ := forall_exists_and_iff_forall₂.mp hqueries
    refine ⟨hchecked.1, given, hgiven, verifyGiven_eq_ok_true_iff.mpr
      ⟨hgiven.length_eq.symm, hchallenges, hrest, ?_, hshort, hpairs⟩⟩
    rw [hrounds]
    exact hchecked.2
  · rintro ⟨hfirst, given, hgiven, haccepted⟩
    obtain ⟨-, hchallenges, hrest, hchecked, hshort, hpairs⟩ :=
      verifyGiven_eq_ok_true_iff.mp haccepted
    have hlayers : (first :: rest).length = parameters.roundCount := by
      rw [List.length_cons, hrest, hcount, Nat.add_sub_cancel]
    rw [hrounds] at hchecked
    refine (verify_eq_ok_true_iff committed).mpr ⟨hchallenges, hlayers, ?_, hshort, ?_⟩
    · rw [hrounds, checkLayers, hfirst, Bool.true_and]
      exact hchecked
    · simp only [checkQuery_cons_iff hrounds hchallenges]
      exact forall_exists_and_iff_forall₂.mpr ⟨given, hgiven, hpairs⟩

variable [LawfulField F]

/-- A proof about a committed word is accepted exactly if it has a first layer for the
first round, this layer lists authentic openings in order, among them one of the leaf of
every position, and without it the proof is accepted about the virtual word that has
these leaves. -/
theorem verify_iff_verifyGiven {domain : EvaluationDomain F} {degreeBound : ℕ}
    {localization : List ℕ} {parameters : Parameters F}
    (accepted : Parameters.new? domain degreeBound localization = .ok parameters)
    (proof : Proof F) (challenges : List F) (positions : List ℕ) :
    verify parameters proof challenges positions = .ok true ↔
      ∃ first rest given, proof.layers = first :: rest ∧ first.round = 0 ∧
        (first.openings.map Merkle.Opening.index).Pairwise (· < ·) ∧
        (∀ opening ∈ first.openings,
          first.root.verify opening (2 ^ localization.headD 0)
            (parameters.initialDomain.dimension - localization.headD 0) = true) ∧
        List.Forall₂ (fun position values => ∃ opening ∈ first.openings,
          opening.index = position >>> localization.headD 0 ∧ opening.values = values)
            positions given ∧
        verifyGiven (parameters.withOracle .virtual) ⟨rest, proof.finalPolynomial⟩ challenges
          positions given = .ok true := by
  obtain ⟨wf, hcommitted, -, rfl, -⟩ := Parameters.wellFormed_of_accepted accepted
  obtain ⟨round, rounds, next, hrounds, hdomain, -, -, -⟩ := wf.exists_first
  have hexponent : parameters.localization.headD 0 = round.exponent := by
    rw [Parameters.localization, hrounds]
    rfl
  have hleaf (position : ℕ) : position / round.cosetSize = position >>> round.exponent := by
    rw [round.cosetSize_eq, Nat.shiftRight_eq_div_pow]
  rw [hexponent, hdomain, ← round.cosetSize_eq]
  obtain ⟨layers, finalPolynomial⟩ := proof
  cases layers with
  | nil =>
      constructor
      · intro verified
        obtain ⟨-, hlayers, -⟩ := (verify_eq_ok_true_iff hcommitted).mp verified
        exact absurd (List.length_eq_zero_iff.mp hlayers.symm) wf.rounds_ne_nil
      · rintro ⟨first, rest, given, hlayers, -⟩
        cases hlayers
  | cons first rest =>
      rw [verify_cons_iff hcommitted hrounds, checkLayer_eq_true_iff]
      have hshown (sorted : increasing (first.openings.map Merkle.Opening.index) = true)
          (position : ℕ) (values : Array F) :
          first.leaf? (position / round.cosetSize) = some values ↔
            ∃ opening ∈ first.openings,
              opening.index = position >>> round.exponent ∧ opening.values = values := by
        rw [LayerProof.leaf?_eq_some_iff (pairwise_of_increasing sorted), hleaf]
      constructor
      · rintro ⟨⟨hround, hsorted, hverified⟩, given, hgiven, haccepted⟩
        simp only [hshown hsorted] at hgiven
        exact ⟨first, rest, given, rfl, hround, pairwise_of_increasing hsorted, hverified, hgiven,
          haccepted⟩
      · rintro ⟨_, _, given, hlayers, hround, hpairwise, hverified, hgiven, haccepted⟩
        cases hlayers
        have hsorted := increasing_of_pairwise hpairwise
        simp only [← hshown hsorted] at hgiven
        exact ⟨⟨hround, hsorted, hverified⟩, given, hgiven, haccepted⟩

/-- Two halvings of the word of `X` on eight points, queried in two leaves. -/
theorem exists_given_of_two_halvings :
    ∃ (proof : Proof BabyBear) (first : LayerProof BabyBear) (rest : List (LayerProof BabyBear))
      (given : List (Array BabyBear)), proof.layers = first :: rest ∧
      verify Parameters.twoHalvings proof [3, 1] [5, 0, 4] = .ok true ∧
      List.Forall₂ (fun position values => ∃ opening ∈ first.openings,
        opening.index = position >>> 1 ∧ opening.values = values) [5, 0, 4] given ∧
      verifyGiven (Parameters.twoHalvings.withOracle .virtual) ⟨rest, proof.finalPolynomial⟩
        [3, 1] [5, 0, 4] given = .ok true := by
  obtain ⟨wf, hcommitted, -⟩ := Parameters.wellFormed_of_accepted Parameters.new?_twoHalvings
  have hdegree : (X : BabyBear[X]).degree < Parameters.twoHalvings.degreeBound := by
    rw [degree_X]
    exact_mod_cast (by decide : 1 < 4)
  have hverified := verify_honestProof_of_degree_lt wf hcommitted hdegree
    (rfl : ([3, 1] : List BabyBear).length = Parameters.twoHalvings.roundCount)
    (by decide : ∀ position ∈ [5, 0, 4], position < 8)
  obtain ⟨first, rest, given, hlayers, -, -, -, hgiven, haccepted⟩ :=
    (verify_iff_verifyGiven Parameters.new?_twoHalvings _ _ _).mp hverified
  exact ⟨_, first, rest, given, hlayers, hverified, hgiven, haccepted⟩

end Verifier
end Fri
end OracleProofs

/-
# The verdict on honest proofs

A prover that starts from any word answers all challenges and queries, and the
verdict on its proof is known exactly: the number of coefficients of the final
polynomial decides, and a queried position is accepted if it lies inside the word
and in a leaf that was opened. For a word of low degree the number of
coefficients never exceeds the bound.
-/

import Mathlib
import OracleProofs.Proofs.Fri.Verifier

namespace OracleProofs
namespace Fri

open Polynomial

variable {F : Type} [FiniteField F]

namespace Parameters

/-- The leaf of a word that holds a position. -/
def leafAround (parameters : Parameters F) (word : Array F) (position : ℕ) : Array F :=
  let leaf := parameters.leafOf 0 position
  word.extract (leaf * parameters.initialCosetSize) ((leaf + 1) * parameters.initialCosetSize)

/-- The point of the second domain to which a leaf of the first word is folded. -/
def pointOfLeaf (parameters : Parameters F) (leaf : ℕ) : F :=
  let domain := parameters.domains.getD 1 parameters.finalDomain
  domain.element (reverseBits domain.dimension leaf)

/-- The value to which the first challenge folds the leaf of a position in the word of
a polynomial. -/
noncomputable def foldedValue [LawfulField F] (parameters : Parameters F) (challenges : List F)
    (p : F[X]) (position : ℕ) : F :=
  (foldSlices parameters.initialCosetSize (challenges.headD 0) p).eval
    (parameters.pointOfLeaf (parameters.leafOf 0 position))

/-- The position lies inside the word and in the leaf of one of the others. -/
def Covers (parameters : Parameters F) (positions : List ℕ) (position : ℕ) : Prop :=
  position < parameters.codewordLength ∧
    ∃ other ∈ positions, parameters.leafOf 0 position = parameters.leafOf 0 other

instance (parameters : Parameters F) (positions : List ℕ) (position : ℕ) :
    Decidable (parameters.Covers positions position) :=
  inferInstanceAs (Decidable (_ ∧ _))

theorem leafOf_zero {parameters : Parameters F} {round : Round F} {rest : List (Round F)}
    (hrounds : parameters.rounds = round :: rest) (position : ℕ) :
    parameters.leafOf 0 position = position / round.cosetSize := by
  rw [parameters.leafOf_eq (by rw [hrounds]; rfl)]
  simp

theorem covers_iff {parameters : Parameters F} {round : Round F} {rest : List (Round F)}
    (hrounds : parameters.rounds = round :: rest) {positions : List ℕ} {position : ℕ} :
    parameters.Covers positions position ↔ position < parameters.codewordLength ∧
      position / round.cosetSize ∈ positions.map (· / round.cosetSize) := by
  rw [Covers, List.mem_map]
  simp only [leafOf_zero hrounds, eq_comm]

theorem covers_iff_mem_leavesOf {parameters : Parameters F} {positions : List ℕ}
    {position : ℕ} :
    parameters.Covers positions position ↔ position < parameters.codewordLength ∧
      parameters.leafOf 0 position ∈ parameters.leavesOf 0 positions := by
  rw [Covers, mem_leavesOf]
  simp only [eq_comm]

end Parameters

variable [LawfulField F]

theorem Parameters.pointOfLeaf_eq {parameters : Parameters F} {round : Round F}
    {rest : List (Round F)} {next : Coset F} (hrounds : parameters.rounds = round :: rest)
    (chain : Chain next rest parameters.finalDomain) (leaf : ℕ) :
    parameters.pointOfLeaf leaf = next.point leaf := by
  have hsecond : parameters.domains.getD 1 parameters.finalDomain = next := by
    rw [domains, hrounds, List.map_cons, List.cons_append, List.getD_cons_succ,
      List.getD_eq_getElem?_getD, chain.getElem?_domains_zero, Option.getD_some]
  rw [pointOfLeaf, hsecond]
  rfl

namespace Verifier

theorem allM_eq_ok {α : Type} {check : α → Except Fault Bool} {verdict : α → Bool}
    {items : List α} (answers : ∀ item ∈ items, check item = .ok (verdict item)) :
    allM check items = .ok (items.all verdict) := by
  induction items with
  | nil => rfl
  | cons first rest ih =>
      have hrest := ih fun item hmem => answers item (List.mem_cons_of_mem first hmem)
      rw [allM, answers first List.mem_cons_self, ok_bind, List.all_cons, hrest]
      cases verdict first <;> rfl

theorem allM_eq_ok_true_iff {α : Type} {check : α → Except Fault Bool} {items : List α} :
    allM check items = .ok true ↔ ∀ item ∈ items, check item = .ok true := by
  induction items with
  | nil => simp [allM]
  | cons first rest ih =>
      rw [allM, List.forall_mem_cons, ← ih, bind_eq_ok_iff]
      constructor
      · rintro ⟨verdict, hfirst, hrest⟩
        cases verdict with
        | false => cases hrest
        | true => exact ⟨hfirst, hrest⟩
      · rintro ⟨hfirst, hrest⟩
        exact ⟨true, hfirst, hrest⟩

theorem allM_map {α β : Type} (check : β → Except Fault Bool) (item : α → β) (items : List α) :
    allM check (items.map item) = allM (fun first => check (item first)) items := by
  induction items with
  | nil => rfl
  | cons first rest ih => rw [List.map_cons, allM, allM, ih]

theorem allM_congr {α : Type} {check other : α → Except Fault Bool} {items : List α}
    (same : ∀ item ∈ items, check item = other item) : allM check items = allM other items := by
  induction items with
  | nil => rfl
  | cons first rest ih =>
      rw [allM, allM, same first List.mem_cons_self,
        ih fun item hmem => same item (List.mem_cons_of_mem first hmem)]

theorem exists_allM_eq_ok {α : Type} {check : α → Except Fault Bool} {items : List α}
    (answered : ∀ item ∈ items, ∃ verdict, check item = .ok verdict) :
    ∃ verdict, allM check items = .ok verdict := by
  induction items with
  | nil => exact ⟨true, rfl⟩
  | cons first rest ih =>
      obtain ⟨verdict, hfirst⟩ := answered first List.mem_cons_self
      rw [allM, hfirst, ok_bind]
      cases verdict with
      | false => exact ⟨false, rfl⟩
      | true => exact ih fun item hmem => answered item (List.mem_cons_of_mem first hmem)

variable {parameters : Parameters F} {p : F[X]} {challenges : List F} {positions : List ℕ}

private theorem polynomialOf_final (wf : parameters.WellFormed)
    (hdegree : p.degree < parameters.initialDomain.size)
    (count : challenges.length = parameters.roundCount) (positions : List ℕ) :
    polynomialOf (honestProof parameters p challenges positions).finalPolynomial =
      foldedBy parameters.rounds challenges p :=
  Prover.polynomialOf_finalCoefficients parameters
    (wf.chain.degree_foldedBy_lt_last count hdegree)

/-- A committed word answers for the leaves that were opened. -/
theorem checkQuery_of_committed (wf : parameters.WellFormed)
    (committed : parameters.oracle = .committed)
    (hdegree : p.degree < parameters.initialDomain.size)
    (count : challenges.length = parameters.roundCount) (positions : List ℕ) (position : ℕ) :
    checkQuery parameters (honestProof parameters p challenges positions) challenges none
        position = .ok (decide (parameters.Covers positions position)) := by
  have hfinal := polynomialOf_final wf hdegree count positions
  obtain ⟨round, rest, next, hrounds, hdomain, -, hfolds, hrest⟩ := wf.exists_first
  rw [Parameters.roundCount, hrounds] at count
  rw [hrounds] at hfinal
  have hlength : parameters.codewordLength = round.domain.size := by
    rw [Parameters.codewordLength, hdomain]
  simp only [Parameters.covers_iff hrounds]
  rw [checkQuery, hlength]
  by_cases hinside : position < round.domain.size
  · rw [if_neg (not_le.mpr hinside)]
    have hlayers : (honestProof parameters p challenges positions).layers =
        layerProofs 0 (round :: rest) challenges p positions := by
      rw [honestProof, committed, hrounds]
      rfl
    rw [hlayers, hrounds, followQuery_of_committed hfolds hrest count hfinal 0 positions
      hinside]
    simp [hinside]
  · rw [if_pos (not_lt.mp hinside)]
    simp [hinside]

/-- A virtual word of which a leaf is given answers whether the leaf folds to the value
that stands in the next word, if the later words were opened there. -/
theorem checkQuery_of_given (wf : parameters.WellFormed)
    (virtual : parameters.oracle = .virtual)
    (hdegree : p.degree < parameters.initialDomain.size)
    (count : challenges.length = parameters.roundCount) {position : ℕ}
    (covers : parameters.Covers positions position) (q : F[X]) :
    checkQuery parameters (honestProof parameters p challenges positions) challenges
        (some (parameters.leafAround (parameters.initialDomain.wordOf q) position)) position =
      .ok (decide (parameters.foldedValue challenges q position =
        parameters.foldedValue challenges p position)) := by
  have hfinal := polynomialOf_final wf hdegree count positions
  obtain ⟨round, rest, next, hrounds, hdomain, hsize, hfolds, hrest⟩ := wf.exists_first
  obtain ⟨hinside, hopened⟩ := (Parameters.covers_iff hrounds).mp covers
  rw [Parameters.roundCount, hrounds] at count
  rw [hrounds] at hfinal
  have hlength : parameters.codewordLength = round.domain.size := by
    rw [Parameters.codewordLength, hdomain]
  have hlayers : (honestProof parameters p challenges positions).layers =
      (layerProofs 0 (round :: rest) challenges p positions).drop 1 := by
    rw [honestProof, virtual, hrounds]
    rfl
  rw [hlength] at hinside
  have hleaf := hfolds.extract_wordOf q (hfolds.div_lt hinside)
  rw [checkQuery, hlength, if_neg (not_le.mpr hinside), hlayers, hrounds, Parameters.leafAround,
    hdomain, hsize, Parameters.leafOf_zero hrounds, Parameters.foldedValue,
    Parameters.foldedValue, hsize, Parameters.pointOfLeaf_eq hrounds hrest,
    Parameters.leafOf_zero hrounds]
  simp only [hleaf]
  exact followQuery_of_given hfolds hrest count hfinal 0 hinside hopened q

/-- All checks of an honest proof but the one of the number of coefficients pass
before the queries are followed. -/
theorem check_honestProof (wf : parameters.WellFormed)
    (count : challenges.length = parameters.roundCount)
    (inside : ∀ position ∈ positions, position < parameters.codewordLength)
    (queries : List ℕ) {given? : Option (List (Array F))}
    (hgiven : (if given?.isSome then 1 else 0) = parameters.oracle.unopened) :
    check parameters (honestProof parameters p challenges positions) challenges queries given? =
      if parameters.finalDegreeBound <
          (honestProof parameters p challenges positions).finalPolynomial.size then .ok false
      else given?.elim
        (allM (checkQuery parameters (honestProof parameters p challenges positions) challenges
          none) queries)
        fun given => allM (fun query =>
          checkQuery parameters (honestProof parameters p challenges positions) challenges
            (some query.2) query.1) (queries.zip given) := by
  have hlength : ¬(honestProof parameters p challenges positions).layers.length ≠
      parameters.roundCount - parameters.oracle.unopened := by
    rw [not_not, honestProof, List.length_drop, length_layerProofs 0 count]
    rfl
  have hlayers : checkLayers parameters.oracle.unopened
      (parameters.rounds.drop parameters.oracle.unopened)
      (honestProof parameters p challenges positions).layers = true := by
    have hall := checkLayers_layerProofs wf.chain count 0 p inside
    rw [honestProof]
    cases parameters.oracle with
    | committed => exact hall
    | virtual =>
        obtain ⟨round, rest, next, hrounds, -⟩ := wf.exists_first
        rw [Parameters.roundCount, hrounds] at count
        rw [hrounds] at hall ⊢
        cases challenges with
        | nil => cases count
        | cons challenge challenges =>
            rw [layerProofs, checkLayers, Bool.and_eq_true] at hall
            exact hall.2
  simp only [check, hgiven, if_neg (not_not.mpr count), if_neg hlength, hlayers]
  cases given? <;> rfl

/-- The verdict on an honest proof about a committed word. -/
theorem verify_honestProof (wf : parameters.WellFormed)
    (committed : parameters.oracle = .committed)
    (hdegree : p.degree < parameters.initialDomain.size)
    (count : challenges.length = parameters.roundCount)
    (inside : ∀ position ∈ positions, position < parameters.codewordLength)
    (queries : List ℕ) :
    verify parameters (honestProof parameters p challenges positions) challenges queries =
      .ok (decide ((honestProof parameters p challenges positions).finalPolynomial.size ≤
          parameters.finalDegreeBound ∧
        ∀ position ∈ queries, parameters.Covers positions position)) := by
  have hqueries := allM_eq_ok fun position (_ : position ∈ queries) =>
    checkQuery_of_committed wf committed hdegree count positions position
  simp only [verify, committed]
  rw [check_honestProof wf count inside queries (by rw [committed]; rfl)]
  by_cases hshort : (honestProof parameters p challenges positions).finalPolynomial.size ≤
      parameters.finalDegreeBound
  · rw [if_neg (not_lt.mpr hshort), Option.elim_none, hqueries]
    congr 1
    rw [Bool.eq_iff_iff]
    simp [hshort]
  · rw [if_pos (not_le.mp hshort)]
    simp [hshort]

/-- The verdict on an honest proof about a virtual word, with leaves of other words in
the place of its own: they have to fold to the same values. -/
theorem verifyGiven_leaves (wf : parameters.WellFormed)
    (virtual : parameters.oracle = .virtual)
    (hdegree : p.degree < parameters.initialDomain.size)
    (count : challenges.length = parameters.roundCount)
    (inside : ∀ position ∈ positions, position < parameters.codewordLength)
    {queries : List ℕ} (covers : ∀ position ∈ queries, parameters.Covers positions position)
    (other : ℕ → F[X]) :
    verifyGiven parameters (honestProof parameters p challenges positions) challenges queries
        (queries.map fun position =>
          parameters.leafAround (parameters.initialDomain.wordOf (other position)) position) =
      .ok (decide ((honestProof parameters p challenges positions).finalPolynomial.size ≤
          parameters.finalDegreeBound ∧
        ∀ position ∈ queries, parameters.foldedValue challenges (other position) position =
          parameters.foldedValue challenges p position)) := by
  let leaf (position : ℕ) : Array F :=
    parameters.leafAround (parameters.initialDomain.wordOf (other position)) position
  have hgiven : queries.zip (queries.map leaf) =
      queries.map fun position => (position, leaf position) :=
    List.map_prod_left_eq_zip.symm
  have hqueries : allM (fun query =>
      checkQuery parameters (honestProof parameters p challenges positions) challenges
        (some query.2) query.1) (queries.zip (queries.map leaf)) =
      .ok ((queries.zip (queries.map leaf)).all fun query =>
        decide (parameters.foldedValue challenges (other query.1) query.1 =
          parameters.foldedValue challenges p query.1)) := by
    apply allM_eq_ok
    intro item hmem
    rw [hgiven] at hmem
    obtain ⟨position, hposition, rfl⟩ := List.mem_map.mp hmem
    exact checkQuery_of_given wf virtual hdegree count (covers position hposition) _
  simp only [verifyGiven, virtual, List.length_map, ne_eq, not_true_eq_false, if_false]
  rw [check_honestProof wf count inside queries (by rw [virtual]; rfl)]
  by_cases hshort : (honestProof parameters p challenges positions).finalPolynomial.size ≤
      parameters.finalDegreeBound
  · rw [if_neg (not_lt.mpr hshort), Option.elim_some, hqueries, hgiven]
    congr 1
    rw [Bool.eq_iff_iff]
    simp [hshort]
  · rw [if_pos (not_le.mp hshort)]
    simp [hshort]

/-- The verdict with the leaves that hold the queried positions. -/
theorem verifyGiven_honestProof (wf : parameters.WellFormed)
    (virtual : parameters.oracle = .virtual)
    (hdegree : p.degree < parameters.initialDomain.size)
    (count : challenges.length = parameters.roundCount)
    (inside : ∀ position ∈ positions, position < parameters.codewordLength)
    {queries : List ℕ} (covers : ∀ position ∈ queries, parameters.Covers positions position) :
    verifyGiven parameters (honestProof parameters p challenges positions) challenges queries
        (queries.map (parameters.leafAround (parameters.initialDomain.wordOf p))) =
      .ok (decide ((honestProof parameters p challenges positions).finalPolynomial.size ≤
        parameters.finalDegreeBound)) := by
  have hverdict := verifyGiven_leaves wf virtual hdegree count inside covers fun _ => p
  simp only [implies_true, and_true] at hverdict
  exact hverdict

/-- Folding a word of low degree leaves no more coefficients than the bound. -/
theorem size_finalPolynomial_le (wf : parameters.WellFormed)
    (count : challenges.length = parameters.roundCount)
    (hdegree : p.degree < parameters.degreeBound) (positions : List ℕ) :
    (honestProof parameters p challenges positions).finalPolynomial.size ≤
      parameters.finalDegreeBound := by
  have hfits : p.degree < parameters.initialDomain.size :=
    hdegree.trans_le (by exact_mod_cast wf.degreeBound_le)
  apply (Prover.size_finalCoefficients_le_iff parameters
    (wf.chain.degree_foldedBy_lt_last count hfits)).mpr
  apply degree_foldedBy_lt_of_mul count
  rwa [Parameters.finalDegreeBound_eq_div, ← Parameters.localization,
    Nat.div_mul_cancel wf.factor_dvd]

/-- An honest proof about a committed word of low degree is accepted at the positions that
it was made for. -/
theorem verify_honestProof_of_degree_lt (wf : parameters.WellFormed)
    (committed : parameters.oracle = .committed) (hdegree : p.degree < parameters.degreeBound)
    (count : challenges.length = parameters.roundCount)
    (inside : ∀ position ∈ positions, position < parameters.codewordLength) :
    verify parameters (honestProof parameters p challenges positions) challenges positions =
      .ok true := by
  have hfits : p.degree < parameters.initialDomain.size :=
    hdegree.trans_le (by exact_mod_cast wf.degreeBound_le)
  rw [verify_honestProof wf committed hfits count inside, decide_eq_true]
  exact ⟨size_finalPolynomial_le wf count hdegree positions,
    fun position hmem => ⟨inside position hmem, position, hmem, rfl⟩⟩

/-- Whatever the word, a fresh prover answers all challenges and queries inside
the word. Its proof is accepted exactly if the final polynomial has no more
coefficients than the bound allows and every queried position shares a leaf with
one that was opened; with the leaves of a virtual word given, the coefficients
alone decide. They are few enough whenever the word is of low degree. -/
theorem verdict_of_honest_run {domain : EvaluationDomain F} {degreeBound : ℕ}
    {localization : List ℕ} (accepted : Parameters.new? domain degreeBound localization =
      .ok parameters)
    {word : Array F} (size : word.size = parameters.codewordLength)
    (count : challenges.length = parameters.roundCount)
    (inside : ∀ position ∈ positions, position < parameters.codewordLength) :
    (∃ prover proof, Prover.ofBitReversed? parameters word = .ok prover ∧
      Prover.ofEvaluations? parameters
        (reverseOrder parameters.initialDomain.dimension word) = .ok prover ∧
      (prover.prove challenges positions).1 = .ok proof ∧
      (∀ queries, ∃ verdict, verify parameters proof challenges queries = .ok verdict ∧
        (verdict = true ↔ proof.finalPolynomial.size ≤ degreeBound / 2 ^ localization.sum ∧
          ∀ position ∈ queries, position < parameters.codewordLength ∧
            ∃ other ∈ positions, parameters.leafOf 0 position = parameters.leafOf 0 other)) ∧
      (parameters.initialDomain.IsLowDegree degreeBound word →
        proof.finalPolynomial.size ≤ degreeBound / 2 ^ localization.sum)) ∧
    ∃ prover proof, Prover.ofBitReversed? (parameters.withOracle .virtual) word = .ok prover ∧
      (prover.prove challenges positions).1 = .ok proof ∧
      (∃ verdict, verifyGiven (parameters.withOracle .virtual) proof challenges positions
          (positions.map (parameters.leafAround word)) = .ok verdict ∧
        (verdict = true ↔ proof.finalPolynomial.size ≤ degreeBound / 2 ^ localization.sum)) ∧
      (parameters.initialDomain.IsLowDegree degreeBound word →
        proof.finalPolynomial.size ≤ degreeBound / 2 ^ localization.sum) := by
  obtain ⟨wf, hcommitted, -, hlocalization, hbound⟩ := Parameters.wellFormed_of_accepted accepted
  have hfinalBound : parameters.finalDegreeBound = degreeBound / 2 ^ localization.sum := by
    rw [Parameters.finalDegreeBound, total_id, Nat.shiftRight_eq_div_pow, hlocalization, hbound]
  obtain ⟨p, hdegree, rfl⟩ := parameters.initialDomain.exists_wordOf size
  have hlow (hlow : parameters.initialDomain.IsLowDegree degreeBound
      (parameters.initialDomain.wordOf p)) : p.degree < parameters.degreeBound := by
    obtain ⟨q, hq, hword⟩ := hlow
    rw [← hbound] at hq
    have hfits : q.degree < parameters.initialDomain.size :=
      hq.trans_le (by exact_mod_cast wf.degreeBound_le)
    rwa [← (parameters.initialDomain.wordOf_inj hfits hdegree).mp hword]
  constructor
  · refine ⟨_, honestProof parameters p challenges positions,
      Prover.ofBitReversed?_wordOf wf p, ?_, ?_, ?_, ?_⟩
    · rw [Coset.reverseOrder_wordOf]
      exact Prover.ofEvaluations?_valuesOf wf p
    · rw [Prover.prove_after wf count inside]
    · intro queries
      refine ⟨_, verify_honestProof wf hcommitted hdegree count inside queries, ?_⟩
      rw [decide_eq_true_iff, hfinalBound]
      rfl
    · intro hword
      rw [← hfinalBound]
      exact size_finalPolynomial_le wf count (hlow hword) positions
  · have hvirtual := wf.withOracle .virtual
    refine ⟨_, honestProof (parameters.withOracle .virtual) p challenges positions,
      Prover.ofBitReversed?_wordOf hvirtual p, ?_, ?_, ?_⟩
    · rw [Prover.prove_after hvirtual count inside]
    · refine ⟨_, verifyGiven_honestProof hvirtual rfl hdegree count inside
        fun position hmem => ⟨inside position hmem, position, hmem, rfl⟩, ?_⟩
      rw [decide_eq_true_iff, ← hfinalBound]
      rfl
    · intro hword
      rw [← hfinalBound]
      exact size_finalPolynomial_le hvirtual count (hlow hword) positions

/-- Two halvings of an arbitrary word on eight points. -/
theorem verdict_of_two_halvings :
    ∃ prover proof, Prover.ofBitReversed? Parameters.twoHalvings #[5, 0, 1, 1, 0, 1, 1, 0] =
        .ok prover ∧
      (prover.prove [3, 1] [6, 1, 6]).1 = .ok proof ∧
      ∃ verdict, verify Parameters.twoHalvings proof [3, 1] [7, 0] = .ok verdict ∧
        (verdict = true → proof.finalPolynomial.size ≤ 1) := by
  obtain ⟨⟨prover, proof, hstart, -, hproof, hverdict, -⟩, -⟩ :=
    verdict_of_honest_run Parameters.new?_twoHalvings
      (rfl : (#[5, 0, 1, 1, 0, 1, 1, 0] : Array BabyBear).size = _)
      (rfl : ([3, 1] : List BabyBear).length = Parameters.twoHalvings.roundCount)
      (by decide : ∀ position ∈ [6, 1, 6], position < 8)
  obtain ⟨verdict, hverify, hiff⟩ := hverdict [7, 0]
  exact ⟨prover, proof, hstart, hproof, verdict, hverify, fun htrue => (hiff.mp htrue).1⟩

end Verifier
end Fri
end OracleProofs

/-
# What the verifier sees in an honest proof

From the openings of the secret words the verifier recovers the inner product and
the blinding polynomial at the opened leaves, and with the openings of the
quotients the values that the combined codeword of every repetition has there. At
a query whose leaf is opened it therefore hands the right leaf to the low-degree
test.
-/

import Mathlib
import OracleProofs.Proofs.Sumcheck.Claim
import OracleProofs.Proofs.Sumcheck.Prover
import OracleProofs.Sumcheck.Verifier

namespace OracleProofs
namespace Sumcheck

open Polynomial

variable {F : Type} [FiniteField F]

theorem readEntry_eq_ok {α : Type} {entries : Array α} {place : ℕ} {entry : α}
    (hentry : entries[place]? = some entry) : readEntry entries place = .ok entry := by
  rw [readEntry, hentry]

variable [LawfulField F]

namespace Instance

variable (given : Instance F) (parameters : Parameters F)

/-- The verifier for the public polynomials and a claimed target. -/
noncomputable def verifierFor (target : F) : Verifier F where
  parameters
  publicWords := given.publicPolys.map fun p => parameters.codewordDomain.wordOf p.toPolynomial
  target

/-- The verifier for the sum that the public polynomials have with the secret ones. -/
noncomputable def verifier : Verifier F :=
  given.verifierFor parameters (given.target parameters)

/-- What is known of a position of an opened leaf. -/
noncomputable def openedPoint (position : ℕ) : OpenedPoint F where
  factors := .ofPosition parameters position
  inner := given.inner.eval (parameters.point position)
  blinding := given.blinding.toPolynomial.eval (parameters.point position)

/-- What is known of the positions of an opened leaf. -/
noncomputable def openedLeaf (leaf : ℕ) : List (OpenedPoint F) :=
  (List.range parameters.cosetSize).map fun offset =>
    given.openedPoint parameters (leaf * parameters.cosetSize + offset)

theorem verifierFor_new (target : F) :
    Verifier.new parameters given.publicPolys target = given.verifierFor parameters target := by
  rw [Verifier.new, parameters.codeword_eq]
  rfl

theorem verifier_new :
    Verifier.new parameters given.publicPolys (given.target parameters) =
      given.verifier parameters :=
  given.verifierFor_new parameters _

/-- The values of the public polynomials in the order of the codeword domain lead to
the same verifier. -/
theorem verifierFor_ofEvaluations? (target : F) :
    Verifier.ofEvaluations? parameters
        (given.publicPolys.map fun p => parameters.codewordDomain.valuesOf p.toPolynomial)
        target = .ok (given.verifierFor parameters target) := by
  have hwords : (given.publicPolys.map fun p =>
      parameters.codewordDomain.valuesOf p.toPolynomial).mapM
        (Verifier.wordOfEvaluations? parameters) =
      .ok (given.publicPolys.map fun p =>
        parameters.codewordDomain.wordOf p.toPolynomial) := by
    rw [List.mapM_map]
    apply mapM_eq_ok
    intro p _
    have hsize : (parameters.codewordDomain.valuesOf p.toPolynomial).size =
        parameters.codewordLength := Coset.size_valuesOf _ _
    show Verifier.wordOfEvaluations? parameters (parameters.codewordDomain.valuesOf _) = _
    rw [Verifier.wordOfEvaluations?, if_pos hsize, Coset.bitReversed?_valuesOf, mapError_ok]
  rw [Verifier.ofEvaluations?, hwords]
  rfl

theorem verifier_ofEvaluations? :
    Verifier.ofEvaluations? parameters
        (given.publicPolys.map fun p => parameters.codewordDomain.valuesOf p.toPolynomial)
        (given.target parameters) = .ok (given.verifier parameters) :=
  given.verifierFor_ofEvaluations? parameters _

variable {parameters}

theorem getElem?_quotientWords {challenges : Challenges F} {place : ℕ}
    {own : RepetitionChallenges F} (hown : challenges[place]? = some own) :
    (given.quotientWords parameters challenges)[place]? =
      some (parameters.codewordDomain.wordOf (given.quotient parameters own.batching)) := by
  rw [quotientWords, List.getElem?_map, hown, Option.map_some]

variable {given}

/-- The word of a secret polynomial stands where the verifier looks for it. -/
theorem getElem?_secretWords {place : ℕ} {p : DensePoly F}
    (hsecret : (given.secretPolys ++ [given.blinding])[place]? = some p) :
    (given.secretWords parameters)[place]? =
      some (parameters.codewordDomain.wordOf p.toPolynomial) := by
  rw [secretWords, List.getElem?_map, hsecret, Option.map_some]

end Instance

namespace Verifier

/-- The inner product at a position, if the values of the secret polynomials stand
at every `cosetSize`-th place. -/
theorem innerAt_eq (domain : Coset F) {position : ℕ} (inside : position < domain.size)
    {cosetSize : ℕ} {values : Array F} {pairs : List (DensePoly F × DensePoly F)} (place : ℕ)
    (opened : ∀ index pair, pairs[index]? = some pair →
      values[place + index * cosetSize]? =
        some (pair.2.toPolynomial.eval (domain.point position))) :
    innerAt cosetSize position values place
        (pairs.map fun pair => domain.wordOf pair.1.toPolynomial) =
      .ok ((innerPolynomial pairs).eval (domain.point position)) := by
  induction pairs generalizing place with
  | nil => simp [innerAt, innerPolynomial]
  | cons pair rest ih =>
      have hfirst : values[place]? = some (pair.2.toPolynomial.eval (domain.point position)) := by
        simpa using opened 0 pair rfl
      have hrest := ih (place + cosetSize) fun index other hother => by
        have hvalue := opened (index + 1) other hother
        rwa [add_mul, one_mul, add_comm (index * cosetSize), ← add_assoc] at hvalue
      rw [List.map_cons, innerAt, readEntry_eq_ok (domain.getElem?_wordOf _ inside), ok_bind,
        readEntry_eq_ok hfirst, ok_bind, hrest, ok_bind, eval_innerPolynomial,
        eval_innerPolynomial, List.map_cons, List.sum_cons]
      rfl

variable {parameters : Parameters F} {given : Instance F} {target : F}

theorem publicWords_verifier (matched : given.publicPolys.length = given.secretPolys.length) :
    (given.verifierFor parameters target).publicWords = given.pairs.map fun pair =>
      parameters.codewordDomain.wordOf pair.1.toPolynomial := by
  have hfirst : given.pairs.map Prod.fst = given.publicPolys := List.map_fst_zip matched.le
  rw [Instance.verifierFor, ← hfirst, List.map_map]
  rfl

variable (target) in
/-- The secret openings and the public words tell the inner product. -/
theorem innerAt_opening (wf : parameters.WellFormed)
    (matched : given.publicPolys.length = given.secretPolys.length) {leaf offset : ℕ}
    (hleaf : leaf < 2 ^ parameters.treeDepth) (hoffset : offset < parameters.cosetSize) :
    innerAt parameters.cosetSize (leaf * parameters.cosetSize + offset)
        ((parameters.sharedTree (given.secretWords parameters)).opening leaf).values offset
        (given.verifierFor parameters target).publicWords =
      .ok (given.inner.eval (parameters.point (leaf * parameters.cosetSize + offset))) := by
  rw [publicWords_verifier matched]
  apply innerAt_eq parameters.codewordDomain (wf.position_lt hleaf hoffset)
  intro index pair hpair
  rw [add_comm]
  apply wf.getElem?_opening (Instance.getElem?_secretWords _) hleaf hoffset
  obtain ⟨-, hsecret⟩ := List.getElem?_zip_eq_some.mp hpair
  rw [List.getElem?_append_left (List.getElem?_eq_some_iff.mp hsecret).1, hsecret]

variable (target) in
/-- The blinding polynomial stands after the secret ones. -/
theorem readEntry_blinding (wf : parameters.WellFormed)
    (matched : given.publicPolys.length = given.secretPolys.length) {leaf offset : ℕ}
    (hleaf : leaf < 2 ^ parameters.treeDepth) (hoffset : offset < parameters.cosetSize) :
    readEntry ((parameters.sharedTree (given.secretWords parameters)).opening leaf).values
        ((given.verifierFor parameters target).publicWords.length * parameters.cosetSize + offset) =
      .ok (given.blinding.toPolynomial.eval
        (parameters.point (leaf * parameters.cosetSize + offset))) := by
  have hlast : (given.secretWords parameters)[given.secretPolys.length]? =
      some (parameters.codewordDomain.wordOf given.blinding.toPolynomial) :=
    Instance.getElem?_secretWords List.getElem?_concat_length
  have hcount : (given.verifierFor parameters target).publicWords.length =
      given.secretPolys.length := by
    rw [← matched]
    exact List.length_map _
  rw [hcount]
  exact readEntry_eq_ok (wf.getElem?_opening hlast hleaf hoffset)

/-- The secret openings tell what there is to know of the positions of a leaf. -/
theorem openedLeaf_opening (wf : parameters.WellFormed)
    (hgiven : given.WellFormed parameters.degreeBound) {leaf : ℕ}
    (hleaf : leaf < 2 ^ parameters.treeDepth) :
    (given.verifierFor parameters target).openedLeaf leaf
        ((parameters.sharedTree (given.secretWords parameters)).opening leaf) =
      .ok (given.openedLeaf parameters leaf) := by
  apply mapM_eq_ok
  intro offset hmem
  have hoffset : offset < parameters.cosetSize := List.mem_range.mp hmem
  have hinner := innerAt_opening target wf hgiven.matched hleaf hoffset
  have hblinding := readEntry_blinding target wf hgiven.matched hleaf hoffset
  exact bind_eq_ok_iff.mpr ⟨_, hinner, bind_eq_ok_iff.mpr ⟨_, hblinding, rfl⟩⟩

/-- The leaf of a word. -/
def blockOf (parameters : Parameters F) (word : Array F) (leaf : ℕ) : Array F :=
  word.extract (leaf * parameters.cosetSize) ((leaf + 1) * parameters.cosetSize)

/-- An opened leaf numbers its positions in order. -/
theorem mem_zipIdx_openedLeaf {leaf : ℕ} {pair : OpenedPoint F × ℕ}
    (hmem : pair ∈ (given.openedLeaf parameters leaf).zipIdx) :
    pair.2 < parameters.cosetSize ∧
      pair.1 = given.openedPoint parameters (leaf * parameters.cosetSize + pair.2) := by
  obtain ⟨point, offset⟩ := pair
  rw [List.mk_mem_zipIdx_iff_getElem?, Instance.openedLeaf, List.getElem?_map,
    Option.map_eq_some_iff] at hmem
  obtain ⟨_, hoffset, rfl⟩ := hmem
  obtain ⟨hlt, rfl⟩ := List.getElem?_eq_some_iff.mp hoffset
  rw [List.length_range] at hlt
  rw [List.getElem_range]
  exact ⟨hlt, rfl⟩

theorem map_zipIdx_openedLeaf {α : Type} (leaf : ℕ) (term : ℕ → α) :
    (given.openedLeaf parameters leaf).zipIdx.map (fun pair => term pair.2) =
      (List.range parameters.cosetSize).map term := by
  have hoffsets : (given.openedLeaf parameters leaf).zipIdx.map Prod.snd =
      List.range parameters.cosetSize := by
    rw [List.zipIdx_map_snd, Instance.openedLeaf, List.length_map, List.length_range,
      List.range_eq_range']
  rw [← hoffsets, List.map_map]
  rfl

/-- The quotient openings tell the leaf of the word that a rule gives. -/
theorem combinedLeaf_opening (wf : parameters.WellFormed) (given : Instance F)
    {challenges : Challenges F} {repetition : ℕ} {own : RepetitionChallenges F}
    (hown : challenges[repetition]? = some own) (target blindingSum : F) {leaf : ℕ}
    (hleaf : leaf < 2 ^ parameters.treeDepth) :
    combinedLeaf (.new parameters own.batching own.combination target blindingSum)
        parameters.cosetSize repetition (given.openedLeaf parameters leaf)
        ((parameters.sharedTree (given.quotientWords parameters challenges)).opening leaf) =
      .ok (blockOf parameters (parameters.codewordDomain.wordOf
        (given.claimed parameters own target blindingSum leaf)) leaf) := by
  have hvalue : ∀ pair ∈ (given.openedLeaf parameters leaf).zipIdx,
      (do
        let quotient ← readEntry
          ((parameters.sharedTree (given.quotientWords parameters challenges)).opening leaf).values
          (repetition * parameters.cosetSize + pair.2)
        return (CombinationRule.new parameters own.batching own.combination target
          blindingSum).evaluate pair.1.factors pair.1.inner pair.1.blinding quotient) =
      .ok ((given.claimed parameters own target blindingSum leaf).eval
        (parameters.point (leaf * parameters.cosetSize + pair.2))) := by
    intro pair hmem
    obtain ⟨hoffset, hpoint⟩ := mem_zipIdx_openedLeaf hmem
    have hquotient := wf.getElem?_opening (given.getElem?_quotientWords hown) hleaf hoffset
    rw [readEntry_eq_ok hquotient, ok_bind, hpoint]
    exact congrArg Except.ok (given.evaluate_claimed wf own target blindingSum hleaf hoffset rfl)
  have hvalues := mapM_eq_ok hvalue
  rw [map_zipIdx_openedLeaf leaf fun offset =>
    (given.claimed parameters own target blindingSum leaf).eval
      (parameters.point (leaf * parameters.cosetSize + offset))] at hvalues
  have hleaves := wf.leaves_mul
  have hinside : (leaf + 1) * parameters.cosetSize ≤ parameters.codewordDomain.size :=
    (Nat.mul_le_mul_right _ hleaf).trans_eq hleaves
  rw [blockOf, Coset.extract_wordOf _ _ hinside]
  show (List.mapM _ _ >>= _) = _
  rw [hvalues]
  rfl

theorem combinedLeaves_openings (wf : parameters.WellFormed) (given : Instance F)
    {challenges : Challenges F} {repetition : ℕ} {own : RepetitionChallenges F}
    (hown : challenges[repetition]? = some own) (target blindingSum : F) {leaves : List ℕ}
    (inside : ∀ leaf ∈ leaves, leaf < 2 ^ parameters.treeDepth) :
    combinedLeaves (.new parameters own.batching own.combination target blindingSum)
        parameters.cosetSize repetition (leaves.map (given.openedLeaf parameters)).toArray
        (leaves.map (parameters.sharedTree
          (given.quotientWords parameters challenges)).opening) =
      .ok (leaves.map fun leaf => blockOf parameters (parameters.codewordDomain.wordOf
        (given.claimed parameters own target blindingSum leaf)) leaf).toArray := by
  let block (leaf : ℕ) : Array F := blockOf parameters (parameters.codewordDomain.wordOf
    (given.claimed parameters own target blindingSum leaf)) leaf
  have hleaf : ∀ pair ∈ (leaves.map (parameters.sharedTree
        (given.quotientWords parameters challenges)).opening).zipIdx,
      (do
        combinedLeaf (.new parameters own.batching own.combination target blindingSum)
          parameters.cosetSize repetition
          (← readEntry (leaves.map (given.openedLeaf parameters)).toArray pair.2) pair.1) =
      .ok (block pair.1.index) := by
    rintro ⟨opening, slot⟩ hmem
    rw [List.mk_mem_zipIdx_iff_getElem?, List.getElem?_map, Option.map_eq_some_iff] at hmem
    obtain ⟨leaf, hleaf, rfl⟩ := hmem
    have hopened : (leaves.map (given.openedLeaf parameters)).toArray[slot]? =
        some (given.openedLeaf parameters leaf) := by
      rw [List.getElem?_toArray, List.getElem?_map, hleaf, Option.map_some]
    rw [readEntry_eq_ok hopened, ok_bind]
    exact combinedLeaf_opening wf given hown target blindingSum
      (inside leaf (List.mem_of_getElem? hleaf))
  have hleaves := mapM_eq_ok hleaf
  rw [← Function.comp_def (fun opening : Merkle.Opening F => block opening.index) Prod.fst,
    ← List.map_map, List.zipIdx_map_fst, List.map_map] at hleaves
  show (List.mapM _ _ >>= _) = _
  rw [hleaves]
  rfl

omit [LawfulField F] in
/-- Every query whose leaf is opened finds what is known of the leaf. -/
theorem readEntry_leavesOf {α : Type} {queries others : List ℕ}
    (covers : ∀ position ∈ others, parameters.fri.Covers queries position) (known : ℕ → α) :
    others.mapM (fun position =>
        readEntry ((parameters.fri.leavesOf 0 queries).map known).toArray
          ((parameters.fri.leavesOf 0 queries).findIdx
            (parameters.fri.leafOf 0 position ≤ ·))) =
      .ok (others.map fun position => known (parameters.fri.leafOf 0 position)) := by
  apply mapM_eq_ok
  intro position hmem
  obtain ⟨-, hlisted⟩ := Fri.Parameters.covers_iff_mem_leavesOf.mp (covers position hmem)
  have hfound : (parameters.fri.leavesOf 0 queries)[(parameters.fri.leavesOf 0 queries).findIdx
      (parameters.fri.leafOf 0 position ≤ ·)]? = some (parameters.fri.leafOf 0 position) :=
    getElem?_findIdx_le (pairwise_sortedDistinct _) hlisted
  apply readEntry_eq_ok
  rw [List.getElem?_toArray, List.getElem?_map, hfound]
  rfl

/-- The low-degree test of a repetition accepts at queries whose leaves are opened, if
the claimed sums are right or their errors are folded away. -/
theorem checkRepetition_honestProof (wf : parameters.WellFormed)
    (hgiven : given.WellFormed parameters.degreeBound) {challenges : Challenges F}
    {repetition : ℕ} {own : RepetitionChallenges F} (hown : challenges[repetition]? = some own)
    (complete : own.folding.length = parameters.fri.roundCount) {queries others : List ℕ}
    (inside : ∀ position ∈ queries, position < parameters.codewordLength)
    (covers : ∀ position ∈ others, parameters.fri.Covers queries position) (blindingSum : F) :
    (given.verifierFor parameters target).checkRepetition
        ((honestProof parameters given challenges queries).withBlindingSum blindingSum)
        others (parameters.fri.leavesOf 0 queries)
        ((parameters.fri.leavesOf 0 queries).map (given.openedLeaf parameters)).toArray
        repetition own
        (Fri.honestProof parameters.fri (given.combined parameters own) own.folding queries) =
      .ok (decide (∀ position ∈ others,
        foldedError parameters own (target - given.target parameters)
          (blindingSum - given.blindingSum parameters) position = 0)) := by
  have hcombined := combinedLeaves_openings wf given hown target blindingSum
    fun _ => wf.leaf_lt inside
  have hread := readEntry_leavesOf covers fun leaf => blockOf parameters
    (parameters.codewordDomain.wordOf (given.claimed parameters own target blindingSum leaf)) leaf
  have hdegree := Instance.degree_combined_lt wf hgiven own
  have hfits : (given.combined parameters own).degree < parameters.fri.initialDomain.size :=
    hdegree.trans_le (by exact_mod_cast wf.fri.degreeBound_le)
  have hverdict := Fri.Verifier.verifyGiven_leaves wf.fri wf.oracle hfits complete inside
    covers fun position =>
      given.claimed parameters own target blindingSum (parameters.fri.leafOf 0 position)
  have hshort := Fri.Verifier.size_finalPolynomial_le wf.fri complete hdegree queries
  simp only [hshort, true_and, given.foldedValue_claimed_eq_iff wf] at hverdict
  exact bind_eq_ok_iff.mpr ⟨_, hcombined, bind_eq_ok_iff.mpr ⟨_, hread, hverdict⟩⟩

end Verifier
end Sumcheck
end OracleProofs

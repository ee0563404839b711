/-
# Proofs that answer every query

A proof that is accepted at every position of the first word leaves a prover no
choice. Every leaf of every layer is read, so the layers show whole words; each
position of a word goes on from a value that the round before it folded to, so
every word is the fold of the one before; and at the end the values are those of
the final polynomial. What was shown is therefore what the honest prover shows
for the first word, and the roots are its roots unless hashed strings collide.
-/

import Mathlib
import OracleProofs.Proofs.Fri.Completeness
import OracleProofs.Proofs.Merkle.Binding

namespace OracleProofs
namespace Fri

open Polynomial

variable {F : Type} [FiniteField F]

section Layers

/-- The opened values, one leaf after the other. -/
def LayerProof.word (layer : LayerProof F) : Array F :=
  (layer.openings.flatMap fun opening => opening.values.toList).toArray

/-- The strings that are hashed while the openings of a layer are checked. -/
def LayerProof.hashedStrings (layer : LayerProof F) : List (List UInt8) :=
  layer.openings.flatMap Merkle.Opening.hashedStrings

/-- Among lists of one length, laid one after the other, each stands in its block. -/
theorem extract_flatMap {α β : Type} {items : List α} {content : α → List β} {size : ℕ}
    (sizes : ∀ item ∈ items, (content item).length = size) {place : ℕ} {item : α}
    (hitem : items[place]? = some item) :
    (items.flatMap content).extract (place * size) ((place + 1) * size) = content item := by
  have hwidth : (place + 1) * size - place * size = size := by
    rw [Nat.succ_mul, Nat.add_sub_cancel_left]
  rw [List.extract_eq_take_drop, hwidth]
  induction items generalizing place with
  | nil => cases hitem
  | cons first rest ih =>
      have hfirst := sizes first List.mem_cons_self
      rw [List.flatMap_cons, List.drop_append, hfirst]
      cases place with
      | zero =>
          cases hitem
          rw [zero_mul, List.drop_zero, Nat.zero_sub, List.drop_zero,
            List.take_append_of_le_length hfirst.ge, List.take_of_length_le hfirst.le]
      | succ place =>
          have hskip : (place + 1) * size - size = place * size := by
            rw [Nat.succ_mul, Nat.add_sub_cancel]
          have hle : (content first).length ≤ (place + 1) * size := by
            rw [hfirst]
            exact Nat.le_mul_of_pos_left _ place.succ_pos
          rw [List.drop_eq_nil_of_le hle, List.nil_append, hskip]
          exact ih (fun item hmem => sizes item (List.mem_cons_of_mem _ hmem)) hitem
            (by rw [Nat.succ_mul, Nat.add_sub_cancel_left])

namespace LayerProof

/-- The openings are those of all leaves in order, each of the width of the round. -/
structure Complete (layer : LayerProof F) (leaves width : ℕ) : Prop where
  indices : layer.openings.map Merkle.Opening.index = List.range leaves
  sizes : ∀ opening ∈ layer.openings, opening.values.size = width

variable {layer : LayerProof F} {leaves width : ℕ}

omit [FiniteField F] in
theorem Complete.length_openings (complete : layer.Complete leaves width) :
    layer.openings.length = leaves := by
  simpa using congrArg List.length complete.indices

omit [FiniteField F] in
theorem Complete.size_word (complete : layer.Complete leaves width) :
    layer.word.size = leaves * width := by
  have hlengths : layer.openings.map (fun opening => opening.values.toList.length) =
      List.replicate leaves width := by
    rw [← complete.length_openings, ← List.map_const']
    exact List.map_congr_left fun opening hmem => complete.sizes opening hmem
  rw [word, List.size_toArray, List.length_flatMap, hlengths, List.sum_replicate, smul_eq_mul]

omit [FiniteField F] in
/-- The openings are blocks of the word. -/
theorem Complete.extract_word (complete : layer.Complete leaves width) {place : ℕ}
    {opening : Merkle.Opening F} (hopening : layer.openings[place]? = some opening) :
    layer.word.extract (place * width) ((place + 1) * width) = opening.values := by
  rw [word, List.extract_toArray, extract_flatMap complete.sizes hopening]

/-- The blocks of the word are the opened leaves. -/
theorem Complete.blocks_word {round : Round F} (complete : layer.Complete leaves round.cosetSize) :
    round.blocks layer.word = (layer.openings.map Merkle.Opening.values).toArray := by
  rw [Round.blocks, blocksOf_eq_ofFn round.cosetSize_pos complete.size_word]
  apply Array.ext
  · simp [complete.length_openings]
  · intro leaf hleft hright
    have hinside : leaf < layer.openings.length := by simpa using hright
    simp [complete.extract_word (List.getElem?_eq_getElem hinside)]

omit [FiniteField F] in
theorem exists_opening_of_leaf? {leaf : ℕ} {values : Array F}
    (shown : layer.leaf? leaf = some values) :
    ∃ opening ∈ layer.openings, opening.index = leaf ∧ opening.values = values := by
  obtain ⟨opening, hfind, hvalues⟩ := Option.map_eq_some_iff.mp shown
  exact ⟨opening, List.mem_of_find?_eq_some hfind, by simpa using List.find?_some hfind, hvalues⟩

omit [FiniteField F] in
/-- The leaf that is shown at an index is the block of the word there. -/
theorem Complete.extract_of_leaf? (complete : layer.Complete leaves width) {leaf : ℕ}
    {values : Array F} (shown : layer.leaf? leaf = some values) :
    layer.word.extract (leaf * width) ((leaf + 1) * width) = values := by
  obtain ⟨opening, hmem, hindex, hvalues⟩ := exists_opening_of_leaf? shown
  obtain ⟨place, hopening⟩ := List.mem_iff_getElem?.mp hmem
  have hindices : (List.range leaves)[place]? = some leaf := by
    rw [← complete.indices, List.getElem?_map, hopening, Option.map_some, hindex]
  have hplace : place = leaf := by
    obtain ⟨hinside, hget⟩ := List.getElem?_eq_some_iff.mp hindices
    exact List.getElem_range hinside ▸ hget
  rw [← hplace, complete.extract_word hopening, hvalues]

end LayerProof
end Layers

namespace Verifier

theorem checkLayer_eq_true_iff {place : ℕ} {round : Round F} {layer : LayerProof F} :
    checkLayer place round layer = true ↔
      layer.round = place ∧ increasing (layer.openings.map Merkle.Opening.index) = true ∧
        ∀ opening ∈ layer.openings,
          layer.root.verify opening round.cosetSize round.treeDepth = true := by
  rw [checkLayer, Bool.and_eq_true, Bool.and_eq_true, decide_eq_true_eq, List.all_eq_true,
    and_assoc]

theorem continues_eq_ok_true_iff {expected? : Option F} {values : Array F} {offset : ℕ} :
    continues expected? values offset = .ok true ↔
      ∀ expected ∈ expected?, values[offset]? = some expected := by
  cases expected? with
  | none => simp [continues]
  | some expected =>
      cases hvalue : values[offset]? with
      | none => simp [continues, hvalue]
      | some value => simp [continues, hvalue]

/-- A query that is followed through a layer found a whole leaf there, with the
expected value at its place. -/
theorem leaf_of_followQuery {round : Round F} {challenge : F} {steps : List (Round F × F)}
    {layer : LayerProof F} {layers : List (LayerProof F)} {last : Coset F}
    {finalPolynomial : Array F} {expected? : Option F} {position : ℕ}
    (followed : followQuery last finalPolynomial ((round, challenge) :: steps) (layer :: layers)
      none expected? position = .ok true) :
    ∃ values, layer.leaf? (position / round.cosetSize) = some values ∧
      values.size = round.cosetSize ∧
        ∀ expected ∈ expected?, values[position % round.cosetSize]? = some expected := by
  simp only [followQuery, readLeaf, ok_bind] at followed
  cases hleaf : layer.leaf? (position / round.cosetSize) with
  | none =>
      rw [hleaf] at followed
      cases followed
  | some values =>
      simp only [hleaf] at followed
      by_cases hsize : values.size = round.cosetSize
      · rw [if_neg (not_not.mpr hsize)] at followed
        obtain ⟨found, hfound, followed⟩ := bind_eq_ok_iff.mp followed
        refine ⟨values, rfl, hsize, continues_eq_ok_true_iff.mp ?_⟩
        cases found with
        | false => cases followed
        | true => exact hfound
      · rw [if_pos hsize] at followed
        cases followed

section Full

variable [LawfulField F] {round : Round F} {next last : Coset F} {challenge : F}
  {layer : LayerProof F} {layers : List (LayerProof F)} {finalPolynomial : Array F}

/-- A layer that is read at every position shows every leaf. -/
theorem complete_of_followed (folds : round.FoldsTo next) {place : ℕ}
    (checked : checkLayer place round layer = true) {steps : List (Round F × F)}
    {expectedAt : ℕ → Option F}
    (followed : ∀ position < round.domain.size,
      followQuery last finalPolynomial ((round, challenge) :: steps) (layer :: layers) none
        (expectedAt position) position = .ok true) :
    layer.Complete next.size round.cosetSize := by
  obtain ⟨-, hsorted, hverified⟩ := checkLayer_eq_true_iff.mp checked
  constructor
  · refine (pairwise_of_increasing hsorted).eq_of_mem_iff List.pairwise_lt_range fun leaf => ?_
    rw [List.mem_range]
    constructor
    · intro hmem
      obtain ⟨opening, hopening, rfl⟩ := List.mem_map.mp hmem
      rw [next.size_eq, ← folds.treeDepth_eq]
      exact (Merkle.Root.verify_eq_true_iff.mp (hverified opening hopening)).2.2.1
    · intro hinside
      have hposition : leaf * round.cosetSize < round.domain.size := by
        rw [← folds.size_mul]
        exact Nat.mul_lt_mul_of_pos_right hinside round.cosetSize_pos
      obtain ⟨values, hshown, -, -⟩ := leaf_of_followQuery (followed _ hposition)
      rw [Nat.mul_div_cancel _ round.cosetSize_pos] at hshown
      obtain ⟨opening, hopening, hindex, -⟩ := LayerProof.exists_opening_of_leaf? hshown
      exact List.mem_map.mpr ⟨opening, hopening, hindex⟩
  · intro opening hopening
    exact (Merkle.Root.verify_eq_true_iff.mp (hverified opening hopening)).2.1

/-- The root of a layer that shows every leaf is that of the tree over its word. -/
theorem root_of_complete (folds : round.FoldsTo next) {place : ℕ}
    (checked : checkLayer place round layer = true)
    (complete : layer.Complete next.size round.cosetSize) {p : F[X]}
    (word : layer.word = round.domain.wordOf p) :
    layer.root = (round.treeOf p).root ∨ Collides layer.hashedStrings := by
  obtain ⟨-, -, hverified⟩ := checkLayer_eq_true_iff.mp checked
  have hindices := complete.indices
  rw [next.size_eq, ← folds.treeDepth_eq] at hindices
  rw [Round.treeOf, ← word, complete.blocks_word, eq_comm]
  exact Merkle.root_ofLeaves_or_collides hindices hverified

/-- A query that is followed through a layer with the word of a polynomial expected a
value of the polynomial, and goes on with a value of what it folds to. -/
theorem followQuery_of_word (folds : round.FoldsTo next)
    (complete : layer.Complete next.size round.cosetSize) {p : F[X]}
    (word : layer.word = round.domain.wordOf p) {steps : List (Round F × F)}
    {expected? : Option F} {position : ℕ} (inside : position < round.domain.size)
    (followed : followQuery last finalPolynomial ((round, challenge) :: steps) (layer :: layers)
      none expected? position = .ok true) :
    (∀ expected ∈ expected?, expected = p.eval (round.domain.point position)) ∧
      followQuery last finalPolynomial steps layers none
        (some ((foldSlices round.cosetSize challenge p).eval
          (next.point (position / round.cosetSize)))) (position / round.cosetSize) =
        .ok true := by
  obtain ⟨values, hshown, -, hexpected⟩ := leaf_of_followQuery followed
  have hvalues : values = round.subgroup.wordOf
      (round.leafPolynomialOf next p (position / round.cosetSize)) := by
    rw [← folds.extract_wordOf p (folds.div_lt inside), ← word]
    exact (complete.extract_of_leaf? hshown).symm
  rw [hvalues] at hshown hexpected
  have hpolynomial : ∀ expected ∈ expected?,
      expected = p.eval (round.domain.point position) := by
    intro expected hmem
    have hentry := hexpected expected hmem
    rw [folds.getElem?_leaf p inside] at hentry
    exact (Option.some.inj hentry).symm
  refine ⟨hpolynomial, ?_⟩
  rw [← followed]
  exact (followQuery_cons folds p inside (by rw [readLeaf, hshown]) hpolynomial challenge steps
    last finalPolynomial).symm

/-- The layers show all leaves of the word of a polynomial and of the words that it
folds to, and the final polynomial is the one that is left. Where a root is not that
of the tree over its word, hashed strings collide. -/
inductive ShowsAll (last : Coset F) (finalPolynomial : Array F) :
    Coset F → List (Round F) → List F → List (LayerProof F) → F[X] → Prop
  | nil : ShowsAll last finalPolynomial last [] [] [] (polynomialOf finalPolynomial)
  | cons {round : Round F} {next : Coset F} {rounds : List (Round F)} {challenge : F}
      {challenges : List F} {layer : LayerProof F} {layers : List (LayerProof F)} {p : F[X]}
      (folds : round.FoldsTo next) (complete : layer.Complete next.size round.cosetSize)
      (word : layer.word = round.domain.wordOf p)
      (root : layer.root = (round.treeOf p).root ∨ Collides layer.hashedStrings)
      (rest : ShowsAll last finalPolynomial next rounds challenges layers
        (foldSlices round.cosetSize challenge p)) :
      ShowsAll last finalPolynomial round.domain (round :: rounds) (challenge :: challenges)
        (layer :: layers) p

/-- If all positions of a word are followed to the end, the layers show everything. The
values that were expected at the start are those of the first polynomial. -/
theorem showsAll_of_followed {first : Coset F} {rounds : List (Round F)}
    (chain : Chain first rounds last) (short : finalPolynomial.size ≤ last.size)
    {challenges : List F} (count : challenges.length = rounds.length)
    (layerCount : layers.length = rounds.length) {place : ℕ}
    (checked : checkLayers place rounds layers = true) {expectedAt : ℕ → Option F}
    (followed : ∀ position < first.size,
      followQuery last finalPolynomial (rounds.zip challenges) layers none
        (expectedAt position) position = .ok true) :
    ∃ p : F[X], p.degree < first.size ∧
      (∀ position < first.size, ∀ expected ∈ expectedAt position,
        expected = p.eval (first.point position)) ∧
      ShowsAll last finalPolynomial first rounds challenges layers p := by
  induction chain generalizing challenges layers place expectedAt with
  | nil last =>
      obtain rfl := List.length_eq_zero_iff.mp count
      obtain rfl := List.length_eq_zero_iff.mp layerCount
      refine ⟨_, (degree_polynomialOf_lt _).trans_le (by exact_mod_cast short), ?_, .nil⟩
      intro position hinside expected hexpected
      have hvalue := followed position hinside
      rw [List.zip_nil_left, followQuery, Option.mem_def.mp hexpected, horner_eq_eval] at hvalue
      simpa [Coset.point] using hvalue
  | @cons round next last rounds folds rest ih =>
      obtain ⟨challenge, challenges, rfl⟩ := List.exists_cons_of_length_eq_add_one count
      obtain ⟨layer, layers, rfl⟩ := List.exists_cons_of_length_eq_add_one layerCount
      rw [checkLayers, Bool.and_eq_true] at checked
      rw [List.zip_cons_cons] at followed
      have hcomplete := complete_of_followed folds checked.1 followed
      obtain ⟨p, hdegree, hword⟩ := round.domain.exists_wordOf
        (hcomplete.size_word.trans folds.size_mul)
      have hstep (position : ℕ) (inside : position < round.domain.size) :=
        followQuery_of_word folds hcomplete hword.symm inside (followed position inside)
      -- every leaf of this word is a position of the next one
      have hnext (leaf : ℕ) (inside : leaf < next.size) :
          followQuery last finalPolynomial (rounds.zip challenges) layers none
            (some ((foldSlices round.cosetSize challenge p).eval (next.point leaf))) leaf =
              .ok true := by
        have hposition : leaf * round.cosetSize < round.domain.size := by
          rw [← folds.size_mul]
          exact Nat.mul_lt_mul_of_pos_right inside round.cosetSize_pos
        have hfollowed := (hstep _ hposition).2
        rwa [Nat.mul_div_cancel _ round.cosetSize_pos] at hfollowed
      obtain ⟨q, hq, hvalues, hshows⟩ := ih short (Nat.succ.inj count) (Nat.succ.inj layerCount)
        checked.2 hnext
      have hfold : foldSlices round.cosetSize challenge p = q :=
        next.eq_of_eval_point_eq (folds.degree_foldSlices_lt challenge hdegree) hq
          fun leaf inside => hvalues leaf inside _ rfl
      rw [← hfold] at hshows
      exact ⟨p, hdegree, fun position inside => (hstep position inside).1,
        .cons folds hcomplete hword.symm
          (root_of_complete folds checked.1 hcomplete hword.symm) hshows⟩

namespace ShowsAll

variable {first : Coset F} {rounds : List (Round F)} {challenges : List F} {p : F[X]}

theorem polynomialOf_eq
    (shows : ShowsAll last finalPolynomial first rounds challenges layers p) :
    polynomialOf finalPolynomial = foldedBy rounds challenges p := by
  induction shows with
  | nil => rfl
  | cons _ _ _ _ _ ih => rw [ih, foldedBy]

theorem word_first (shows : ShowsAll last finalPolynomial first rounds challenges layers p)
    {layer : LayerProof F} (hlayer : layers[0]? = some layer) :
    layer.word = first.wordOf p := by
  cases shows with
  | nil => cases hlayer
  | cons _ _ word _ _ =>
      cases hlayer
      exact word

/-- A layer shows the leaves of its round, and its word folds to that of the next
layer. -/
theorem layer_spec (shows : ShowsAll last finalPolynomial first rounds challenges layers p)
    {place : ℕ} {round : Round F} {layer : LayerProof F} (hround : rounds[place]? = some round)
    (hlayer : layers[place]? = some layer) :
    layer.openings.map Merkle.Opening.index =
        List.range (round.domain.size / round.cosetSize) ∧
      layer.word.size = round.domain.size ∧
      ∀ challenge next, challenges[place]? = some challenge → layers[place + 1]? = some next →
        round.foldWord? layer.word challenge = .ok next.word := by
  induction shows generalizing place with
  | nil => cases hround
  | cons folds complete word root rest ih =>
      cases place with
      | succ place => exact ih hround hlayer
      | zero =>
          cases hround
          cases hlayer
          refine ⟨?_, complete.size_word.trans folds.size_mul, ?_⟩
          · rw [← folds.size_mul, Nat.mul_div_cancel _ round.cosetSize_pos]
            exact complete.indices
          · intro challenge following hchallenge hnext
            cases hchallenge
            rw [word, folds.foldWord?_wordOf, rest.word_first hnext]

/-- Every root is the one of the honest prover, or hashed strings collide. -/
theorem root_eq (shows : ShowsAll last finalPolynomial first rounds challenges layers p)
    {start place : ℕ} {positions : List ℕ} {layer honest : LayerProof F}
    (hlayer : layers[place]? = some layer)
    (hhonest : (layerProofs start rounds challenges p positions)[place]? = some honest) :
    layer.root = honest.root ∨ Collides layer.hashedStrings := by
  induction shows generalizing start place positions with
  | nil => cases hlayer
  | cons folds complete word root rest ih =>
      cases place with
      | succ place => exact ih hlayer hhonest
      | zero =>
          cases hlayer
          cases hhonest
          exact root

end ShowsAll

end Full

/-- What an accepted proof passed. -/
theorem check_eq_ok_true_iff {parameters : Parameters F} {proof : Proof F} {challenges : List F}
    {positions : List ℕ} {given? : Option (List (Array F))} :
    check parameters proof challenges positions given? = .ok true ↔
      challenges.length = parameters.roundCount ∧
        proof.layers.length = parameters.roundCount - (if given?.isSome then 1 else 0) ∧
        checkLayers (if given?.isSome then 1 else 0)
          (parameters.rounds.drop (if given?.isSome then 1 else 0)) proof.layers = true ∧
        proof.finalPolynomial.size ≤ parameters.finalDegreeBound ∧
        given?.elim
          (∀ position ∈ positions, checkQuery parameters proof challenges none position = .ok true)
          fun given => ∀ query ∈ positions.zip given,
            checkQuery parameters proof challenges (some query.2) query.1 = .ok true := by
  simp only [check, ite_refused_eq_ok_true_iff, not_not, not_lt, Bool.not_eq_true',
    Bool.not_eq_false]
  cases given? with
  | none => rw [allM_eq_ok_true_iff]; rfl
  | some given => rw [allM_eq_ok_true_iff]; rfl

/-- What an accepted proof about a committed word passed. -/
theorem verify_eq_ok_true_iff {parameters : Parameters F}
    (committed : parameters.oracle = .committed) {proof : Proof F} {challenges : List F}
    {positions : List ℕ} :
    verify parameters proof challenges positions = .ok true ↔
      challenges.length = parameters.roundCount ∧ proof.layers.length = parameters.roundCount ∧
        checkLayers 0 parameters.rounds proof.layers = true ∧
        proof.finalPolynomial.size ≤ parameters.finalDegreeBound ∧
        ∀ position ∈ positions,
          checkQuery parameters proof challenges none position = .ok true := by
  simp only [verify, committed]
  exact check_eq_ok_true_iff

end Verifier

section Honest

variable [LawfulField F]

namespace Verifier

theorem exists_showsAll_of_verify {parameters : Parameters F} (wf : parameters.WellFormed)
    (committed : parameters.oracle = .committed) {proof : Proof F} {challenges : List F}
    (verified : verify parameters proof challenges (List.range parameters.codewordLength) =
      .ok true) :
    ∃ p, ShowsAll parameters.finalDomain proof.finalPolynomial parameters.initialDomain
      parameters.rounds challenges proof.layers p := by
  obtain ⟨hcount, hlayers, hchecked, hshort, hqueries⟩ :=
    (verify_eq_ok_true_iff committed).mp verified
  have hfollowed (position : ℕ) (inside : position < parameters.codewordLength) :
      followQuery parameters.finalDomain proof.finalPolynomial (parameters.rounds.zip challenges)
        proof.layers none none position = .ok true := by
    have hquery := hqueries position (List.mem_range.mpr inside)
    rwa [checkQuery, if_neg (not_le.mpr inside)] at hquery
  obtain ⟨p, -, -, hshows⟩ := showsAll_of_followed wf.chain
    (hshort.trans wf.finalDegreeBound_le) hcount hlayers hchecked hfollowed
  exact ⟨p, hshows⟩

/-- A proof that is accepted at all positions is as good as honest, whoever made it. Its
layers show all leaves in order, their words are folded from one to the next, and a
prover that starts from the first word answers the same challenges with the same
final polynomial and the same roots, unless two of the strings that were hashed to
verify a layer collide. -/
theorem honest_of_verify_range {domain : EvaluationDomain F} {degreeBound : ℕ}
    {localization : List ℕ} {parameters : Parameters F}
    (accepted : Parameters.new? domain degreeBound localization = .ok parameters)
    {proof : Proof F} {challenges : List F}
    (verified : verify parameters proof challenges (List.range parameters.codewordLength) =
      .ok true) :
    challenges.length = parameters.roundCount ∧ proof.layers.length = parameters.roundCount ∧
    (∀ (place : ℕ) (round : Round F) (layer : LayerProof F),
      parameters.rounds[place]? = some round → proof.layers[place]? = some layer →
      layer.openings.map Merkle.Opening.index =
          List.range (round.domain.size / round.cosetSize) ∧
        layer.word.size = round.domain.size ∧
        ∀ challenge next, challenges[place]? = some challenge →
          proof.layers[place + 1]? = some next →
            round.foldWord? layer.word challenge = .ok next.word) ∧
    proof.finalPolynomial.size ≤ degreeBound / 2 ^ localization.sum ∧
    ∃ first prover, proof.layers[0]? = some first ∧
      Prover.ofBitReversed? parameters first.word = .ok prover ∧
      ∀ positions, (∀ position ∈ positions, position < parameters.codewordLength) →
        ∃ honest, (prover.prove challenges positions).1 = .ok honest ∧
          honest.finalPolynomial = trimZeros proof.finalPolynomial ∧
          honest.layers.length = parameters.roundCount ∧
          ∀ (place : ℕ) (layer honestLayer : LayerProof F),
            proof.layers[place]? = some layer → honest.layers[place]? = some honestLayer →
              layer.root = honestLayer.root ∨ Collides layer.hashedStrings := by
  obtain ⟨wf, hcommitted, -, hlocalization, hbound⟩ := Parameters.wellFormed_of_accepted accepted
  obtain ⟨hcount, hlayers, -, hshort, -⟩ := (verify_eq_ok_true_iff hcommitted).mp verified
  obtain ⟨p, hshows⟩ := exists_showsAll_of_verify wf hcommitted verified
  have hfinalBound : parameters.finalDegreeBound = degreeBound / 2 ^ localization.sum := by
    rw [Parameters.finalDegreeBound, total_id, Nat.shiftRight_eq_div_pow, hlocalization, hbound]
  have hpositive : 0 < proof.layers.length := by
    rw [hlayers]
    exact List.length_pos_iff.mpr wf.rounds_ne_nil
  have hfirst := List.getElem?_eq_getElem hpositive
  refine ⟨hcount, hlayers, fun place round layer => hshows.layer_spec, hshort.trans_eq hfinalBound,
    proof.layers[0], Prover.after parameters p [], hfirst, ?_, fun positions inside => ?_⟩
  · rw [hshows.word_first hfirst]
    exact Prover.ofBitReversed?_wordOf wf p
  · refine ⟨honestProof parameters p challenges positions, ?_, ?_, ?_, ?_⟩
    · rw [Prover.prove_after wf hcount inside]
    · rw [honestProof, ← hshows.polynomialOf_eq, Prover.finalCoefficients_polynomialOf parameters
        (hshort.trans wf.finalDegreeBound_le)]
    · rw [honestProof, hcommitted]
      exact length_layerProofs 0 hcount p positions
    · intro place layer honestLayer hlayer hhonest
      rw [honestProof, hcommitted] at hhonest
      exact hshows.root_eq hlayer hhonest

/-- Two halvings of the word of `X` on eight points, queried everywhere. -/
theorem honest_of_verify_eight :
    ∃ proof : Proof BabyBear,
      verify Parameters.twoHalvings proof [3, 1] (List.range 8) = .ok true ∧
      proof.finalPolynomial.size ≤ 1 ∧
      ∃ first prover, proof.layers[0]? = some first ∧
        Prover.ofBitReversed? Parameters.twoHalvings first.word = .ok prover ∧
        ∃ honest, (prover.prove [3, 1] [5]).1 = .ok honest ∧
          honest.finalPolynomial = trimZeros proof.finalPolynomial := by
  have haccepted := Parameters.new?_twoHalvings
  obtain ⟨wf, hcommitted, -⟩ := Parameters.wellFormed_of_accepted haccepted
  have hinside : ∀ position ∈ List.range 8, position < Parameters.twoHalvings.codewordLength :=
    fun position hmem => List.mem_range.mp hmem
  have hdegree : (X : BabyBear[X]).degree < Parameters.twoHalvings.degreeBound := by
    rw [degree_X]
    exact_mod_cast (by decide : 1 < 4)
  let proof := honestProof Parameters.twoHalvings X [3, 1] (List.range 8)
  have hverified : verify Parameters.twoHalvings proof [3, 1] (List.range 8) = .ok true := by
    rw [verify_honestProof wf hcommitted (hdegree.trans_le (by exact_mod_cast wf.degreeBound_le))
      rfl hinside, decide_eq_true]
    exact ⟨size_finalPolynomial_le wf rfl hdegree _,
      fun position hmem => ⟨hinside position hmem, position, hmem, rfl⟩⟩
  obtain ⟨-, -, -, hshort, first, prover, hfirst, hstart, hprove⟩ :=
    honest_of_verify_range haccepted hverified
  obtain ⟨honest, hhonest, hfinal, -⟩ := hprove [5] (by decide)
  exact ⟨proof, hverified, hshort, first, prover, hfirst, hstart, honest, hhonest, hfinal⟩

end Verifier
end Honest

end Fri
end OracleProofs

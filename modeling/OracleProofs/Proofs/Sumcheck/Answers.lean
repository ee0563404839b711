/-
# When the verifier of the sumcheck answers

Counted in natural numbers the verifier answers on every proof, because the number and the
widths of the openings are checked before anything is read from them. On words it answers only
if the widths of the leaves are words themselves. The parameters are accepted without a look at
that: the number of repetitions is free, and all points of a domain may stand in one leaf. If a
width is too large, already a proof without openings breaks the verifier off.
-/

import Mathlib
import OracleProofs.Proofs.Field.Prime
import OracleProofs.Proofs.Sumcheck.Guarded

namespace OracleProofs
namespace Sumcheck

variable {F : Type} [FiniteField F]

namespace Verifier

/-- The inner product is read at a position inside the public words, if the opening holds a
value for each of them. -/
theorem exists_innerAt {cosetSize position : ℕ} {values : Array F} {words : List (Array F)}
    (known : ∀ word ∈ words, position < word.size) {place : ℕ}
    (room : ∀ number < words.length, place + number * cosetSize < values.size) :
    ∃ sum, innerAt cosetSize position values place words = .ok sum := by
  induction words generalizing place with
  | nil => exact ⟨0, rfl⟩
  | cons word rest ih =>
      have hplace : place < values.size := by simpa using room 0 (Nat.succ_pos _)
      have hlater : ∀ number < rest.length, place + cosetSize + number * cosetSize <
          values.size := by
        intro number hnumber
        have hnext := room (number + 1) (Nat.succ_lt_succ hnumber)
        rwa [Nat.succ_mul, add_comm (number * cosetSize), ← add_assoc] at hnext
      obtain ⟨later, hrest⟩ := ih (fun word hmem => known word (List.mem_cons_of_mem _ hmem)) hlater
      have hword := Array.getElem?_eq_getElem (known word List.mem_cons_self)
      have hvalue := Array.getElem?_eq_getElem hplace
      rw [innerAt, readEntry_eq_ok hword, ok_bind, readEntry_eq_ok hvalue, ok_bind, hrest]
      exact ⟨_, rfl⟩

variable [LawfulField F] {verifier : Verifier F}

theorem exists_openedLeaf (wf : verifier.parameters.WellFormed)
    (sizes : ∀ word ∈ verifier.publicWords, word.size = verifier.parameters.codewordLength)
    {leaf : ℕ} (inside : leaf < 2 ^ verifier.parameters.treeDepth) {opening : Merkle.Opening F}
    (width : opening.values.size =
      (verifier.publicWords.length + 1) * verifier.parameters.cosetSize) :
    ∃ points, verifier.openedLeaf leaf opening = .ok points := by
  apply exists_mapM_eq_ok
  intro offset hmem
  have hoffset : offset < verifier.parameters.cosetSize := List.mem_range.mp hmem
  have hposition := wf.position_lt inside hoffset
  have hplace (number : ℕ) (hnumber : number ≤ verifier.publicWords.length) :
      number * verifier.parameters.cosetSize + offset < opening.values.size := by
    rw [width]
    exact Guarded.slot_lt (Nat.lt_succ_of_le hnumber) hoffset
  obtain ⟨inner, hinner⟩ := exists_innerAt
    (fun word hword => hposition.trans_eq (sizes word hword).symm)
    fun number hnumber => (add_comm offset _).trans_lt (hplace number hnumber.le)
  have hblinding := Array.getElem?_eq_getElem (hplace _ le_rfl)
  simp only [hinner, ok_bind, readEntry_eq_ok hblinding]
  exact ⟨_, rfl⟩

omit [LawfulField F] in
theorem exists_combinedLeaf (rule : CombinationRule F) {cosetSize repetition repetitions : ℕ}
    (inside : repetition < repetitions) {points : List (OpenedPoint F)}
    (size : points.length = cosetSize) {opening : Merkle.Opening F}
    (width : opening.values.size = repetitions * cosetSize) :
    ∃ values, combinedLeaf rule cosetSize repetition points opening = .ok values := by
  rw [combinedLeaf]
  refine exists_bind_eq_ok (exists_mapM_eq_ok ?_) fun values _ => ⟨values.toArray, rfl⟩
  rintro ⟨point, offset⟩ hmem
  have hoffset : offset < cosetSize := (List.snd_lt_of_mem_zipIdx hmem).trans_eq size
  have hplace : repetition * cosetSize + offset < opening.values.size := by
    rw [width]
    exact Guarded.slot_lt inside hoffset
  have hquotient := Array.getElem?_eq_getElem hplace
  simp only [readEntry_eq_ok hquotient, ok_bind]
  exact ⟨_, rfl⟩

omit [LawfulField F] in
theorem exists_combinedLeaves (rule : CombinationRule F) {cosetSize repetition repetitions : ℕ}
    (inside : repetition < repetitions) {opened : List (List (OpenedPoint F))}
    (sizes : ∀ points ∈ opened, points.length = cosetSize) {openings : List (Merkle.Opening F)}
    (count : openings.length ≤ opened.length)
    (widths : ∀ opening ∈ openings, opening.values.size = repetitions * cosetSize) :
    ∃ combined, combinedLeaves rule cosetSize repetition opened.toArray openings =
      .ok combined := by
  rw [combinedLeaves]
  refine exists_bind_eq_ok (exists_mapM_eq_ok ?_) fun leaves _ => ⟨leaves.toArray, rfl⟩
  rintro ⟨opening, slot⟩ hmem
  rw [List.mk_mem_zipIdx_iff_getElem?] at hmem
  have hslot : slot < opened.length := (List.getElem?_eq_some_iff.mp hmem).1.trans_le count
  have hread : readEntry opened.toArray slot = .ok opened[slot] :=
    readEntry_eq_ok (List.getElem?_toArray.trans (List.getElem?_eq_getElem hslot))
  simp only [hread, ok_bind]
  exact exists_combinedLeaf rule inside (sizes _ (List.getElem_mem hslot))
    (widths opening (List.mem_of_getElem? hmem))

omit [LawfulField F] in
theorem size_of_combinedLeaves {rule : CombinationRule F} {cosetSize repetition : ℕ}
    {opened : Array (List (OpenedPoint F))} {openings : List (Merkle.Opening F)}
    {combined : Array (Array F)}
    (answered : combinedLeaves rule cosetSize repetition opened openings = .ok combined) :
    combined.size = openings.length := by
  obtain ⟨leaves, hleaves, hcombined⟩ := bind_eq_ok_iff.mp answered
  cases hcombined
  rw [List.size_toArray, length_of_mapM_eq_ok hleaves, List.length_zipIdx]

omit [LawfulField F] in
theorem exists_checkRepetition {proof : Proof F} {queries : List ℕ}
    (quotients : Guarded.Opens proof.quotientOpenings (verifier.parameters.fri.leavesOf 0 queries)
      (verifier.parameters.repetitions * verifier.parameters.cosetSize))
    {opened : List (List (OpenedPoint F))}
    (count : opened.length = (verifier.parameters.fri.leavesOf 0 queries).length)
    (sizes : ∀ points ∈ opened, points.length = verifier.parameters.cosetSize) {repetition : ℕ}
    (inside : repetition < verifier.parameters.repetitions) (challenges : RepetitionChallenges F)
    (friProof : Fri.Proof F) :
    ∃ verdict, verifier.checkRepetition proof queries
      (verifier.parameters.fri.leavesOf 0 queries) opened.toArray repetition challenges friProof =
        .ok verdict := by
  obtain ⟨combined, hcombined⟩ := exists_combinedLeaves (.new verifier.parameters
    challenges.batching challenges.combination verifier.target proof.firstMessage.blindingSum)
    inside sizes (quotients.count.symm.trans count.symm).le quotients.sizes
  simp only [checkRepetition, hcombined, ok_bind]
  refine exists_bind_eq_ok (exists_mapM_eq_ok fun position hmem => ?_) fun given _ =>
    Fri.Verifier.exists_verifyGiven _ _ _ _ given
  -- the leaf of a queried position stands in the list of leaves
  have hleaf : (verifier.parameters.fri.leavesOf 0 queries).findIdx
      (verifier.parameters.fri.leafOf 0 position ≤ ·) < combined.size := by
    rw [size_of_combinedLeaves hcombined, ← quotients.count, List.findIdx_lt_length]
    exact ⟨_, Fri.Parameters.mem_leavesOf.mpr ⟨position, hmem, rfl⟩, decide_eq_true le_rfl⟩
  exact ⟨_, readEntry_eq_ok (Array.getElem?_eq_getElem hleaf)⟩

/-- Whatever a proof contains, the verifier answers. -/
theorem exists_verify (wf : verifier.parameters.WellFormed)
    (sizes : ∀ word ∈ verifier.publicWords, word.size = verifier.parameters.codewordLength)
    (proof : Proof F) (challenges : Challenges F) (queries : List ℕ) :
    ∃ verdict, verifier.verify proof challenges queries = .ok verdict := by
  rw [verify]
  refine exists_ite_refused_eq_ok fun hcounts => exists_ite_refused_eq_ok fun houtside =>
    exists_ite_refused_eq_ok fun hchecked => ?_
  rw [Bool.not_eq_true', Bool.not_eq_false] at hchecked
  obtain ⟨hsecret, hquotient⟩ := Guarded.opens_of_checkOpenings hchecked
  have hinside : ∀ position ∈ queries, position < verifier.parameters.codewordLength := by
    simpa using houtside
  refine exists_bind_eq_ok (exists_mapM_eq_ok ?_) fun opened hopened => ?_
  · rintro ⟨leaf, opening⟩ hmem
    obtain ⟨hleaf, hopening⟩ := List.of_mem_zip hmem
    exact exists_openedLeaf wf sizes (wf.leaf_lt hinside hleaf) (hsecret.sizes opening hopening)
  obtain ⟨hcount, hpoints⟩ := Guarded.sizes_of_opened hsecret.count hopened
  apply Fri.Verifier.exists_allM_eq_ok
  rintro ⟨⟨own, friProof⟩, repetition⟩ hmem
  have hrepetition : repetition < verifier.parameters.repetitions := by
    have hplace := List.snd_lt_of_mem_zipIdx hmem
    simp only [Bool.or_eq_true, decide_eq_true_eq, not_or, not_not] at hcounts
    rw [List.length_zip, hcounts.1, hcounts.2, min_self] at hplace
    exact hplace
  exact exists_checkRepetition hquotient hcount hpoints hrepetition own friProof

theorem size_of_new {parameters : Parameters F} (publicPolys : List (DensePoly F)) (target : F) :
    ∀ word ∈ (new parameters publicPolys target).publicWords,
      word.size = parameters.codewordLength := by
  intro word hmem
  obtain ⟨p, -, rfl⟩ := List.mem_map.mp hmem
  rw [parameters.codeword_eq]
  exact Coset.size_wordOf _ _

omit [LawfulField F] in
theorem size_of_ofEvaluations? {parameters : Parameters F} {evaluations : List (Array F)}
    {target : F} (made : ofEvaluations? parameters evaluations target = .ok verifier) :
    verifier.parameters = parameters ∧
      ∀ word ∈ verifier.publicWords, word.size = parameters.codewordLength := by
  obtain ⟨words, hwords, hverifier⟩ := bind_eq_ok_iff.mp made
  cases hverifier
  refine ⟨rfl, fun word hmem => ?_⟩
  obtain ⟨values, -, hword⟩ := exists_item_of_mapM_eq_ok hwords hmem
  rw [wordOfEvaluations?] at hword
  by_cases hsize : values.size = parameters.codewordLength
  · have hpower : values.size = 2 ^ parameters.codewordDomain.dimension := by
      rw [hsize]
      exact Coset.size_eq _
    rw [if_pos hsize, mapError_eq_ok_iff, bitReversed?_of_size hpower] at hword
    cases hword
    rw [size_reverseOrder, hsize]
  · rw [if_neg hsize] at hword
    cases hword

end Verifier

/-- Counted in natural numbers, neither verifier ever breaks off, whatever it is given. For all
accepted parameters the low-degree test of a committed and of a virtual word answers on every
proof, every list of challenges and positions and every list of given leaves, and so does the
verifier of the sumcheck, made from polynomials or from values.
If the length of the words is itself a word, the guarded low-degree test, in which no entry is
missing, no difference is negative and no sum or shift is too large, gives the same answers. The
guarded verifier of the sumcheck breaks off exactly where a width of the leaves overflows and
gives the same answer everywhere else. It answers on all proofs, challenges and queries if and
only if both widths are words. -/
theorem answers_unless_width_overflows [LawfulField F] :
    (∀ {domain : EvaluationDomain F} {degreeBound : ℕ} {localization : List ℕ}
      {parameters : Fri.Parameters F},
      Fri.Parameters.new? domain degreeBound localization = .ok parameters →
      ∀ (oracle : Fri.InitialOracle) (proof : Fri.Proof F) (challenges : List F)
        (positions : List ℕ) (given : List (Array F)),
        (∃ verdict, Fri.Verifier.verify (parameters.withOracle oracle) proof challenges
            positions = .ok verdict ∧
          (parameters.codewordLength < wordValues →
            Fri.Guarded.verify (parameters.withOracle oracle) proof challenges positions =
              .ok verdict)) ∧
        ∃ verdict, Fri.Verifier.verifyGiven (parameters.withOracle oracle) proof challenges
            positions given = .ok verdict ∧
          (parameters.codewordLength < wordValues →
            Fri.Guarded.verifyGiven (parameters.withOracle oracle) proof challenges positions
              given = .ok verdict)) ∧
    ∀ {summationDomain codewordDomain : EvaluationDomain F} {degreeBound : ℕ}
      {localization : List ℕ} {repetitions : ℕ} {parameters : Parameters F},
      Parameters.new? summationDomain codewordDomain degreeBound localization repetitions =
        .ok parameters →
      ∀ verifier : Verifier F,
        ((∃ publicPolys target, verifier = .new parameters publicPolys target) ∨
          ∃ evaluations target,
            Verifier.ofEvaluations? parameters evaluations target = .ok verifier) →
        (∀ (proof : Proof F) (challenges : Challenges F) (queries : List ℕ),
          ∃ verdict, verifier.verify proof challenges queries = .ok verdict ∧
            (parameters.codewordLength < wordValues →
              (∀ cause, Guarded.verify verifier proof challenges queries = .error cause ↔
                cause = .overflow ∧ Guarded.BreaksOff verifier proof challenges queries) ∧
              (¬Guarded.BreaksOff verifier proof challenges queries →
                Guarded.verify verifier proof challenges queries = .ok verdict))) ∧
        (parameters.codewordLength < wordValues →
          ((∀ proof challenges queries, ∃ verdict,
              Guarded.verify verifier proof challenges queries = .ok verdict) ↔
            Guarded.WidthsFit verifier)) := by
  constructor
  · intro domain degreeBound localization parameters accepted oracle proof challenges positions
      given
    have wf := (Fri.Parameters.wellFormed_of_accepted accepted).1.withOracle oracle
    obtain ⟨committed, hcommitted⟩ := Fri.Verifier.exists_verify (parameters.withOracle oracle)
      proof challenges positions
    obtain ⟨virtual, hvirtual⟩ := Fri.Verifier.exists_verifyGiven (parameters.withOracle oracle)
      proof challenges positions given
    exact ⟨⟨committed, hcommitted, fun word =>
        (Fri.Guarded.verify_eq wf word proof challenges positions).trans hcommitted⟩,
      virtual, hvirtual, fun word =>
        (Fri.Guarded.verifyGiven_eq wf word proof challenges positions given).trans hvirtual⟩
  · intro summationDomain codewordDomain degreeBound localization repetitions parameters accepted
      verifier made
    have wf := (Parameters.wellFormed_of_accepted accepted).1
    obtain ⟨hparameters, hsizes⟩ : verifier.parameters = parameters ∧
        ∀ word ∈ verifier.publicWords, word.size = parameters.codewordLength := by
      rcases made with ⟨publicPolys, target, rfl⟩ | ⟨evaluations, target, hmade⟩
      · exact ⟨rfl, Verifier.size_of_new publicPolys target⟩
      · exact Verifier.size_of_ofEvaluations? hmade
    subst hparameters
    have hanswers := Verifier.exists_verify wf hsizes
    constructor
    · intro proof challenges queries
      obtain ⟨verdict, hverdict⟩ := hanswers proof challenges queries
      exact ⟨verdict, hverdict, fun word =>
        ⟨fun cause => Guarded.verify_eq_error_iff wf word hverdict,
          fun hfits => (Guarded.verify_eq wf word hfits).trans hverdict⟩⟩
    · refine fun word => ⟨fun hanswered => ?_, fun widths proof challenges queries => ?_⟩
      · by_contra hlarge
        have hbreaks := Guarded.breaksOff_unopened hlarge
        obtain ⟨verdict, hverdict⟩ := hanswered _ _ _
        cases hverdict.symm.trans (Guarded.verify_eq_error wf word hbreaks)
      · obtain ⟨verdict, hverdict⟩ := hanswers proof challenges queries
        exact ⟨verdict, (Guarded.verify_eq wf word fun hbreaks =>
          hbreaks.not_widthsFit widths).trans hverdict⟩

/-- Layers without openings, and openings that are fewer than their queries. -/
theorem answers_of_missing_openings :
    Fri.Guarded.verify Fri.Parameters.twoHalvings
        ⟨[⟨0, default, []⟩, ⟨1, default, []⟩], #[7]⟩ [3, 1] [5, 9] = .ok false ∧
      Guarded.verify (.new Parameters.twoPoints [] 22)
        ⟨⟨default, 10⟩, default, ⟨default, 16, 2, [2], []⟩, ⟨default, 16, 2, [2], []⟩,
          [⟨[], #[7]⟩, ⟨[], #[]⟩]⟩
        [⟨3, ⟨1, 0, 2, 0⟩, []⟩, ⟨0, ⟨0, 0, 0, 0⟩, [5, 5]⟩] [4, 5] = .ok false := by
  obtain ⟨hfri, hsumcheck⟩ := answers_unless_width_overflows (F := BabyBear)
  obtain ⟨⟨first, hfirst, hguarded⟩, -⟩ := hfri Fri.Parameters.new?_twoHalvings .committed
    ⟨[⟨0, default, []⟩, ⟨1, default, []⟩], #[7]⟩ [3, 1] [5, 9] []
  obtain ⟨hverify, hall⟩ := hsumcheck Parameters.new?_twoPoints (.new Parameters.twoPoints [] 22)
    (.inl ⟨[], 22, rfl⟩)
  obtain ⟨second, hsecond, hguarded'⟩ := hverify
    ⟨⟨default, 10⟩, default, ⟨default, 16, 2, [2], []⟩, ⟨default, 16, 2, [2], []⟩,
      [⟨[], #[7]⟩, ⟨[], #[]⟩]⟩
    [⟨3, ⟨1, 0, 2, 0⟩, []⟩, ⟨0, ⟨0, 0, 0, 0⟩, [5, 5]⟩] [4, 5]
  have hfirstFalse : first = false := Except.ok.inj (hfirst.symm.trans (by decide +kernel))
  have hsecondFalse : second = false := Except.ok.inj (hsecond.symm.trans (by decide +kernel))
  have hword : Fri.Parameters.twoHalvings.codewordLength < wordValues := by decide
  have hword' : Parameters.twoPoints.codewordLength < wordValues := by decide
  have hfits : Guarded.WidthsFit (.new Parameters.twoPoints [] 22) := ⟨by decide, by decide⟩
  refine ⟨(hguarded hword).trans (congrArg _ hfirstFalse), ?_⟩
  rw [(hguarded' hword').2 fun hbreaks => hbreaks.not_widthsFit hfits, hsecondFalse]

/-- `9 * 2 ^ 63 + 1`. The units of its residues have a subgroup of `2 ^ 63` elements. -/
abbrev deepPrime : ℕ := 83010348331692982273

instance : TwoAdicPrime deepPrime where
  one_lt := by decide
  generator := 11
  twoAdicity := 63
  words := 2
  wordsInverse := 62257761248769736725
  wordsInverse_shift := by decide

instance : FiniteField (Residue deepPrime) := Residue.field deepPrime

theorem prime_deepPrime : deepPrime.Prime :=
  Residue.prime_of_generator [(2, 63), (3, 2)]
    (by norm_num) (by decide +kernel) (by decide +kernel) (by decide +kernel)

instance : LawfulField (Residue deepPrime) :=
  Residue.lawfulField prime_deepPrime (by norm_num) (by decide +kernel)
    (by decide +kernel) (by decide +kernel)

/-- Sums over one point, with words over a subgroup of which one leaf holds all points. -/
def Parameters.oneLeaf (F : Type) [FiniteField F] [LawfulField F] {dimension : ℕ}
    (inside : dimension ≤ FiniteField.twoAdicity F) (repetitions : ℕ) : Parameters F :=
  let point : Coset F := ⟨0, 1, Nat.zero_le _, one_ne_zero⟩
  let domain : Coset F := ⟨dimension, 1, inside, one_ne_zero⟩
  { summation := point
    fri := {
      rounds := [⟨domain, dimension, domain⟩]
      finalDomain := point
      degreeBound := domain.size
      oracle := .virtual }
    repetitions
    sizeInverse := 1 }

set_option maxRecDepth 4000 in
theorem Parameters.new?_oneLeaf_deep :
    new? (.coset (oneLeaf (Residue deepPrime) le_rfl 2).summation)
        (.coset (oneLeaf (Residue deepPrime) le_rfl 2).codewordDomain)
        9223372036854775808 [63] 2 = .ok (.oneLeaf _ le_rfl 2) := rfl

set_option maxRecDepth 4000 in
theorem Parameters.new?_oneLeaf_goldilocks :
    new? (.coset (oneLeaf Goldilocks le_rfl 4294967296).summation)
        (.coset (oneLeaf Goldilocks le_rfl 4294967296).codewordDomain) 4294967296 [32]
        4294967296 = .ok (.oneLeaf _ le_rfl 4294967296) := rfl

/-- Two challenges and two proofs of the low-degree test are enough for the verifier to break off,
without any public polynomial, opening or query: the parameters are accepted, and a leaf of two
quotients has `2 ^ 64` values. Over a subgroup of `2 ^ 32` elements it takes as many quotients. -/
theorem breaks_off_on_two_repetitions :
    Parameters.new? (.coset (Parameters.oneLeaf (Residue deepPrime) le_rfl 2).summation)
        (.coset (Parameters.oneLeaf (Residue deepPrime) le_rfl 2).codewordDomain)
        9223372036854775808 [63] 2 = .ok (.oneLeaf _ le_rfl 2) ∧
      Guarded.verify (.new (.oneLeaf (Residue deepPrime) le_rfl 2) [] 0)
        ⟨⟨default, 0⟩, default, ⟨default, 1, 1, [], []⟩, ⟨default, 1, 1, [], []⟩,
          [⟨[], #[]⟩, ⟨[], #[]⟩]⟩
        [⟨0, ⟨0, 0, 0, 0⟩, [0]⟩, ⟨0, ⟨0, 0, 0, 0⟩, [0]⟩] [] = .error .overflow ∧
      Parameters.new? (.coset (Parameters.oneLeaf Goldilocks le_rfl 4294967296).summation)
        (.coset (Parameters.oneLeaf Goldilocks le_rfl 4294967296).codewordDomain) 4294967296 [32]
        4294967296 = .ok (.oneLeaf _ le_rfl 4294967296) ∧
      Guarded.verify (.new (.oneLeaf Goldilocks le_rfl 4294967296) [] 0)
        ⟨⟨default, 0⟩, default, ⟨default, 1, 1, [], []⟩, ⟨default, 1, 1, [], []⟩,
          List.replicate 4294967296 ⟨[], #[]⟩⟩
        (List.replicate 4294967296 ⟨0, ⟨0, 0, 0, 0⟩, [0]⟩) [] = .error .overflow := by
  have hdeep : ¬Guarded.WidthsFit (.new (.oneLeaf (Residue deepPrime) le_rfl 2) [] 0) :=
    fun widths => absurd widths.quotient (by decide)
  have hgoldilocks : ¬Guarded.WidthsFit (.new (.oneLeaf Goldilocks le_rfl 4294967296) [] 0) :=
    fun widths => absurd widths.quotient (by decide)
  have hdeepWf := (Parameters.wellFormed_of_accepted Parameters.new?_oneLeaf_deep).1
  have hgoldilocksWf := (Parameters.wellFormed_of_accepted Parameters.new?_oneLeaf_goldilocks).1
  exact ⟨Parameters.new?_oneLeaf_deep,
    Guarded.verify_eq_error hdeepWf (by decide) (Guarded.breaksOff_unopened hdeep),
    Parameters.new?_oneLeaf_goldilocks,
    Guarded.verify_eq_error hgoldilocksWf (by decide) (Guarded.breaksOff_unopened hgoldilocks)⟩

end Sumcheck
end OracleProofs

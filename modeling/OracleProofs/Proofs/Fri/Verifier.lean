/-
# The verifier on honest proofs

The openings of an honest proof are authentic and in order. A query that reads
the leaf of an honest word finds the value that the previous round folded to and
folds the leaf to a value of the next word, so a position whose leaf was opened
once is followed through all rounds to a value of the final polynomial.
-/

import Mathlib
import OracleProofs.Fri.Verifier
import OracleProofs.Proofs.Fri.Query

namespace OracleProofs
namespace Fri

open Polynomial

variable {F : Type} [FiniteField F] [LawfulField F]

section Leaves

variable {round : Round F} {next : Coset F}

/-- The entry of a leaf at the position that reads it. -/
theorem Round.FoldsTo.getElem?_leaf (folds : round.FoldsTo next) (p : F[X]) {position : ℕ}
    (inside : position < round.domain.size) :
    (round.subgroup.wordOf
        (round.leafPolynomialOf next p (position / round.cosetSize)))[position % round.cosetSize]? =
      some (p.eval (round.domain.point position)) := by
  have hoffset := Nat.mod_lt position round.cosetSize_pos
  have hposition : position / round.cosetSize * round.cosetSize + position % round.cosetSize =
      position := Nat.div_add_mod' _ _
  have hwidth : position % round.cosetSize <
      min ((position / round.cosetSize + 1) * round.cosetSize) (round.domain.wordOf p).size -
        position / round.cosetSize * round.cosetSize := by
    rw [← Array.size_extract,
      size_block (folds.size_wordOf p) (folds.div_lt inside)]
    exact hoffset
  rw [← folds.extract_wordOf p (folds.div_lt inside), Array.getElem?_extract, if_pos hwidth,
    hposition, Coset.getElem?_wordOf _ _ inside]

theorem Round.FoldsTo.size_leaf (folds : round.FoldsTo next) (p : F[X]) :
    (round.subgroup.wordOf p).size = round.cosetSize := by
  rw [Coset.size_wordOf, folds.subgroup_size]

theorem Round.FoldsTo.getD_leaves_treeOf (folds : round.FoldsTo next) (p : F[X]) {leaf : ℕ}
    (inside : leaf < next.size) :
    (round.treeOf p).leaves.getD leaf #[] =
      round.subgroup.wordOf (round.leafPolynomialOf next p leaf) := by
  have hleaves : (round.treeOf p).leaves = round.blocks (round.domain.wordOf p) := rfl
  rw [hleaves, folds.blocks_wordOf, ← folds.extract_wordOf p inside]
  simp [Array.getD_eq_getD_getElem?, inside]

private theorem find?_eq_ite (numbers : List ℕ) (number : ℕ) :
    numbers.find? (fun other => decide (other = number)) =
      if number ∈ numbers then some number else none := by
  cases hfind : numbers.find? (fun other => decide (other = number)) with
  | none =>
      rw [if_neg]
      intro hmem
      simpa using List.find?_eq_none.mp hfind number hmem
  | some other =>
      have hequal : other = number := by simpa using List.find?_some hfind
      have hmem := List.mem_of_find?_eq_some hfind
      rw [if_pos (hequal ▸ hmem), hequal]

/-- A layer proof shows exactly the leaves of its positions. -/
theorem Round.FoldsTo.leaf?_layerProofOf (folds : round.FoldsTo next) (place : ℕ) (p : F[X])
    (positions : List ℕ) {leaf : ℕ} (inside : leaf < next.size) :
    (round.layerProofOf place p positions).leaf? leaf =
      if leaf ∈ positions.map (· / round.cosetSize) then
        some (round.subgroup.wordOf (round.leafPolynomialOf next p leaf))
      else none := by
  have hindex : (fun opening : Merkle.Opening F => decide (opening.index = leaf)) ∘
      (round.treeOf p).opening = fun index => decide (index = leaf) := rfl
  rw [LayerProof.leaf?, Round.layerProofOf, List.find?_map, hindex, find?_eq_ite]
  simp only [mem_sortedDistinct]
  split
  · exact congrArg some (folds.getD_leaves_treeOf p inside)
  · rfl

end Leaves

namespace Verifier

section Openings

theorem increasing_of_pairwise {numbers : List ℕ} (sorted : numbers.Pairwise (· < ·)) :
    increasing numbers = true := by
  induction numbers with
  | nil => rfl
  | cons first rest ih =>
      cases rest with
      | nil => rfl
      | cons second rest =>
          have hfirst : first < second := List.rel_of_pairwise_cons sorted List.mem_cons_self
          rw [increasing, ih sorted.of_cons, Bool.and_true, decide_eq_true hfirst]

theorem pairwise_of_increasing {numbers : List ℕ} (sorted : increasing numbers = true) :
    numbers.Pairwise (· < ·) := by
  induction numbers with
  | nil => exact .nil
  | cons first rest ih =>
      cases rest with
      | nil => exact List.pairwise_singleton _ _
      | cons second rest =>
          rw [increasing, Bool.and_eq_true, decide_eq_true_eq] at sorted
          have hrest := ih sorted.2
          refine List.pairwise_cons.mpr ⟨fun number hmem => ?_, hrest⟩
          obtain rfl | hmem := List.mem_cons.mp hmem
          · exact sorted.1
          · exact sorted.1.trans (List.rel_of_pairwise_cons hrest hmem)

/-- The openings of an honest layer are sorted and authentic. -/
theorem checkLayer_layerProofOf {round : Round F} {next : Coset F}
    (folds : round.FoldsTo next) (place : ℕ) (p : F[X]) {positions : List ℕ}
    (inside : ∀ position ∈ positions, position < round.domain.size) :
    checkLayer place round (round.layerProofOf place p positions) = true := by
  have hindices : ((round.layerProofOf place p positions).openings.map
      Merkle.Opening.index) = sortedDistinct (positions.map (· / round.cosetSize)) := by
    rw [Round.layerProofOf, List.map_map]
    exact List.map_id _
  have hauthentic : (round.layerProofOf place p positions).openings.all (fun opening =>
      (round.treeOf p).root.verify opening round.cosetSize round.treeDepth) = true := by
    rw [List.all_eq_true]
    intro opening hmem
    obtain ⟨leaf, hleaf, rfl⟩ := List.mem_map.mp hmem
    apply (folds.wellFormed_treeOf p).verify_opening
    have hdepth : (round.treeOf p).depth = round.treeDepth := rfl
    rw [hdepth, folds.treeDepth_eq, ← next.size_eq]
    exact folds.leaf_lt inside hleaf
  rw [checkLayer, hindices, increasing_of_pairwise (pairwise_sortedDistinct _)]
  simp only [Round.layerProofOf, decide_true, Bool.true_and]
  exact hauthentic

theorem checkLayers_layerProofs {first last : Coset F} {rounds : List (Round F)}
    (chain : Chain first rounds last) {challenges : List F}
    (count : challenges.length = rounds.length) (place : ℕ) (p : F[X]) {positions : List ℕ}
    (inside : ∀ position ∈ positions, position < first.size) :
    checkLayers place rounds (layerProofs place rounds challenges p positions) = true := by
  induction chain generalizing challenges place p positions with
  | nil last => rw [checkLayers]; simp
  | cons folds rest ih =>
      cases challenges with
      | nil => cases count
      | cons challenge challenges =>
          rw [layerProofs, checkLayers, checkLayer_layerProofOf folds place p inside,
            Bool.true_and]
          apply ih (Nat.succ.inj count)
          intro leaf hmem
          obtain ⟨position, hposition, rfl⟩ := List.mem_map.mp hmem
          exact folds.div_lt (inside position hposition)

end Openings

section Follow

/-- A query that reads the leaf of an honest word goes on with a value of the
folded polynomial. -/
theorem followQuery_cons {round : Round F} {next : Coset F} (folds : round.FoldsTo next)
    (p : F[X]) {position : ℕ} (inside : position < round.domain.size)
    {given? : Option (Array F)} {layers rest : List (LayerProof F)}
    (hread : readLeaf given? layers (position / round.cosetSize) =
      .ok (some (round.subgroup.wordOf
        (round.leafPolynomialOf next p (position / round.cosetSize))), rest))
    {expected? : Option F}
    (hexpected : ∀ value ∈ expected?, value = p.eval (round.domain.point position))
    (challenge : F) (steps : List (Round F × F)) (finalDomain : Coset F)
    (finalPolynomial : Array F) :
    followQuery finalDomain finalPolynomial ((round, challenge) :: steps) layers given?
        expected? position =
      followQuery finalDomain finalPolynomial steps rest none
        (some ((foldSlices round.cosetSize challenge p).eval
          (next.point (position / round.cosetSize)))) (position / round.cosetSize) := by
  have hsize := folds.size_leaf (round.leafPolynomialOf next p (position / round.cosetSize))
  have hcontinues : continues expected? (round.subgroup.wordOf
      (round.leafPolynomialOf next p (position / round.cosetSize)))
        (position % round.cosetSize) = .ok true := by
    cases expected? with
    | none => rfl
    | some expected =>
        simp [continues, folds.getElem?_leaf p inside, hexpected expected rfl]
  have hfolded : foldOpened round challenge (position / round.cosetSize) (round.subgroup.wordOf
      (round.leafPolynomialOf next p (position / round.cosetSize))) =
        .ok (some ((foldSlices round.cosetSize challenge p).eval
          (next.point (position / round.cosetSize)))) := by
    have hleaf := folds.foldLeaf?_leaf p challenge (position / round.cosetSize)
    rw [Round.foldLeaf?] at hleaf
    rw [foldOpened, FiniteField.inverse?_of_ne_zero (round.cosetBase_ne_zero _)]
    simp only [hleaf]
  rw [followQuery]
  simp only [hread, ok_bind]
  rw [if_neg (not_not.mpr hsize), hcontinues]
  simp only [ok_bind, hfolded]
  rfl

private theorem readLeaf_layerProofs {round : Round F} {next : Coset F}
    (folds : round.FoldsTo next) (place : ℕ) (rounds : List (Round F)) (challenge : F)
    (challenges : List F) (p : F[X]) (positions : List ℕ) {leaf : ℕ} (inside : leaf < next.size) :
    readLeaf none (layerProofs place (round :: rounds) (challenge :: challenges) p positions)
        leaf =
      .ok (if leaf ∈ positions.map (· / round.cosetSize) then
          some (round.subgroup.wordOf (round.leafPolynomialOf next p leaf))
        else none,
        layerProofs (place + 1) rounds challenges (foldSlices round.cosetSize challenge p)
          (positions.map (· / round.cosetSize))) := by
  rw [layerProofs, readLeaf, folds.leaf?_layerProofOf place p positions inside]

/-- A query that reads the leaf of an honest word and expects another value there is
refused. -/
theorem followQuery_of_ne {round : Round F} {next : Coset F} (folds : round.FoldsTo next)
    (p : F[X]) {position : ℕ} (inside : position < round.domain.size)
    {layers rest : List (LayerProof F)}
    (hread : readLeaf none layers (position / round.cosetSize) =
      .ok (some (round.subgroup.wordOf
        (round.leafPolynomialOf next p (position / round.cosetSize))), rest))
    {expected : F} (hne : expected ≠ p.eval (round.domain.point position)) (challenge : F)
    (steps : List (Round F × F)) (finalDomain : Coset F) (finalPolynomial : Array F) :
    followQuery finalDomain finalPolynomial ((round, challenge) :: steps) layers none
        (some expected) position = .ok false := by
  have hsize := folds.size_leaf (round.leafPolynomialOf next p (position / round.cosetSize))
  have hcontinues : continues (some expected) (round.subgroup.wordOf
      (round.leafPolynomialOf next p (position / round.cosetSize)))
        (position % round.cosetSize) = .ok false := by
    simp [continues, folds.getElem?_leaf p inside, hne.symm]
  rw [followQuery]
  simp only [hread, ok_bind]
  rw [if_neg (not_not.mpr hsize), hcontinues]
  rfl

/-- A position whose leaves were opened is followed to a value of the final polynomial
if the expected value is the one that stands there. -/
theorem followQuery_layerProofs {first last : Coset F} {rounds : List (Round F)}
    (chain : Chain first rounds last) {challenges : List F}
    (count : challenges.length = rounds.length) (p : F[X]) {finalPolynomial : Array F}
    (hfinal : polynomialOf finalPolynomial = foldedBy rounds challenges p) (place : ℕ)
    {positions : List ℕ} {position : ℕ} (inside : position < first.size)
    (opened : position ∈ positions) (expected : F) :
    followQuery last finalPolynomial (rounds.zip challenges)
        (layerProofs place rounds challenges p positions) none (some expected) position =
      .ok (decide (expected = p.eval (first.point position))) := by
  induction chain generalizing challenges place p positions position expected with
  | nil last =>
      have hp : foldedBy [] challenges p = p := by simp [foldedBy]
      rw [List.zip_nil_left, followQuery, horner_eq_eval, hfinal, hp]
      exact congrArg Except.ok (decide_eq_decide.mpr Option.some_inj)
  | @cons round next last rounds folds rest ih =>
      cases challenges with
      | nil => cases count
      | cons challenge challenges =>
          have hleaf : position / round.cosetSize ∈ positions.map (· / round.cosetSize) :=
            List.mem_map_of_mem opened
          have hread := readLeaf_layerProofs folds place rounds challenge challenges p positions
            (folds.div_lt inside)
          rw [if_pos hleaf] at hread
          rw [List.zip_cons_cons]
          by_cases hexpected : expected = p.eval (round.domain.point position)
          · rw [followQuery_cons folds p inside hread (by simpa using hexpected),
              ih (Nat.succ.inj count) _ hfinal _ (folds.div_lt inside) hleaf,
              decide_eq_true rfl, decide_eq_true hexpected]
          · rw [followQuery_of_ne folds p inside hread hexpected, decide_eq_false hexpected]

variable {round : Round F} {rest : List (Round F)} {next last : Coset F} {challenges : List F}
  {p : F[X]} {finalPolynomial : Array F} {position : ℕ}

/-- A committed first word answers exactly for the leaves that were opened. -/
theorem followQuery_of_committed (folds : round.FoldsTo next) (chain : Chain next rest last)
    (count : challenges.length = (round :: rest).length)
    (hfinal : polynomialOf finalPolynomial = foldedBy (round :: rest) challenges p) (place : ℕ)
    (positions : List ℕ) (inside : position < round.domain.size) :
    followQuery last finalPolynomial ((round :: rest).zip challenges)
        (layerProofs place (round :: rest) challenges p positions) none none position =
      .ok (decide (position / round.cosetSize ∈ positions.map (· / round.cosetSize))) := by
  cases challenges with
  | nil => cases count
  | cons challenge challenges =>
      have hread := readLeaf_layerProofs folds place rest challenge challenges p positions
        (folds.div_lt inside)
      rw [List.zip_cons_cons]
      by_cases hopened : position / round.cosetSize ∈ positions.map (· / round.cosetSize)
      · rw [if_pos hopened] at hread
        rw [followQuery_cons folds p inside hread (by simp), decide_eq_true hopened]
        rw [followQuery_layerProofs chain (Nat.succ.inj count) _ hfinal _ (folds.div_lt inside)
          hopened, decide_eq_true rfl]
      · rw [if_neg hopened] at hread
        rw [followQuery, decide_eq_false hopened]
        simp only [hread, ok_bind]
        rfl

/-- A virtual first word of which a leaf is given is followed if later words were
opened there and the leaf folds to the value that stands in the next word. -/
theorem followQuery_of_given (folds : round.FoldsTo next) (chain : Chain next rest last)
    (count : challenges.length = (round :: rest).length)
    (hfinal : polynomialOf finalPolynomial = foldedBy (round :: rest) challenges p) (place : ℕ)
    {positions : List ℕ} (inside : position < round.domain.size)
    (opened : position / round.cosetSize ∈ positions.map (· / round.cosetSize)) (q : F[X]) :
    followQuery last finalPolynomial ((round :: rest).zip challenges)
        ((layerProofs place (round :: rest) challenges p positions).drop 1)
        (some (round.subgroup.wordOf
          (round.leafPolynomialOf next q (position / round.cosetSize)))) none position =
      .ok (decide ((foldSlices round.cosetSize (challenges.headD 0) q).eval
          (next.point (position / round.cosetSize)) =
        (foldSlices round.cosetSize (challenges.headD 0) p).eval
          (next.point (position / round.cosetSize)))) := by
  cases challenges with
  | nil => cases count
  | cons challenge challenges =>
      rw [List.zip_cons_cons, followQuery_cons folds q inside rfl (by simp)]
      exact followQuery_layerProofs chain (Nat.succ.inj count) _ hfinal _
        (folds.div_lt inside) opened _

end Follow

end Verifier
end Fri
end OracleProofs

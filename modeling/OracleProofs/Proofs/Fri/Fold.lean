/-
# Folding a word folds its polynomial

The values on a leaf are those of a polynomial of bounded degree on the subgroup
of the round, and folding evaluates it. Taken over all leaves this turns the word
of a polynomial into the word of its folded slices on the next domain. Since
every word is the word of some polynomial, this describes folding completely, and
the degree of what is folded can be read off enough of its folds.
-/

import Mathlib
import OracleProofs.Fri.Parameters
import OracleProofs.Proofs.Fri.Geometry

namespace OracleProofs
namespace Fri

open Polynomial

variable {F : Type} [FiniteField F] [LawfulField F]

/-- Folding a leaf evaluates the polynomial that has its values. -/
theorem foldCoset?_wordOf (subgroup : Coset F) {q : F[X]} (hdegree : q.degree < subgroup.size)
    (point : F) : foldCoset? subgroup (subgroup.wordOf q) point = .ok (q.eval point) := by
  rw [foldCoset?, subgroup.bitReversed?_wordOf, mapError_ok, ok_bind,
    subgroup.interpolate?_valuesOf, ok_bind, horner_eq_eval,
    subgroup.interpolate_valuesOf hdegree]
  rfl

section Blocks

variable {word : Array F} {leaves size : ℕ}

omit [FiniteField F] [LawfulField F] in
/-- A word with a whole number of blocks has no shorter block. -/
theorem blocksOf_eq_ofFn (positive : 0 < size) (whole : word.size = leaves * size) :
    blocksOf size word = Array.ofFn fun leaf : Fin leaves =>
      word.extract (leaf * size) ((leaf + 1) * size) := by
  have hcount : (word.size + size - 1) / size = leaves := by
    rw [whole, Nat.add_sub_assoc positive, add_comm, Nat.add_mul_div_right _ _ positive,
      Nat.div_eq_of_lt (Nat.sub_one_lt positive.ne'), zero_add]
  rw [blocksOf, hcount]

omit [FiniteField F] [LawfulField F] in
theorem size_block {leaf : ℕ} (whole : word.size = leaves * size) (inside : leaf < leaves) :
    (word.extract (leaf * size) ((leaf + 1) * size)).size = size := by
  have hle : (leaf + 1) * size ≤ word.size := by
    rw [whole]
    exact Nat.mul_le_mul_right _ inside
  rw [Array.size_extract, min_eq_left hle, Nat.succ_mul, Nat.add_sub_cancel_left]

omit [FiniteField F] [LawfulField F] in
theorem size_blocksOf (positive : 0 < size) (whole : word.size = leaves * size) :
    (blocksOf size word).size = leaves := by
  rw [blocksOf_eq_ofFn positive whole, Array.size_ofFn]

omit [FiniteField F] [LawfulField F] in
theorem size_of_mem_blocksOf (positive : 0 < size) (whole : word.size = leaves * size)
    {block : Array F} (hmem : block ∈ blocksOf size word) : block.size = size := by
  rw [blocksOf_eq_ofFn positive whole, Array.mem_ofFn] at hmem
  obtain ⟨place, rfl⟩ := hmem
  exact size_block whole place.isLt

end Blocks

namespace Round

variable {round : Round F} {next : Coset F}

/-- The polynomial whose values on the subgroup stand in a leaf. -/
noncomputable def leafPolynomialOf (round : Round F) (next : Coset F) (p : F[X]) (leaf : ℕ) :
    F[X] :=
  leafPolynomial round.cosetSize p (round.cosetBase leaf) (next.point leaf)

/-- A word over the domain of a round has one block for each point of the next domain. -/
theorem FoldsTo.size_wordOf (folds : round.FoldsTo next) (p : F[X]) :
    (round.domain.wordOf p).size = next.size * round.cosetSize := by
  rw [Coset.size_wordOf, folds.size_mul]

theorem FoldsTo.degree_leafPolynomialOf_lt (folds : round.FoldsTo next) (p : F[X]) (leaf : ℕ) :
    (round.leafPolynomialOf next p leaf).degree < round.subgroup.size := by
  rw [folds.subgroup_size]
  exact degree_leafPolynomial_lt _ _ _ _

theorem FoldsTo.extract_wordOf (folds : round.FoldsTo next) (p : F[X]) {leaf : ℕ}
    (inside : leaf < next.size) :
    (round.domain.wordOf p).extract (leaf * round.cosetSize) ((leaf + 1) * round.cosetSize) =
      round.subgroup.wordOf (round.leafPolynomialOf next p leaf) := by
  apply Array.ext
  · rw [size_block (folds.size_wordOf p) inside, Coset.size_wordOf, folds.subgroup_size]
  · intro offset hleft hright
    have hoffset : offset < round.cosetSize := by
      rwa [Coset.size_wordOf, folds.subgroup_size] at hright
    have hpower := folds.point_pow leaf hoffset
    rw [folds.point_leaf leaf hoffset] at hpower
    simp only [Array.getElem_extract, Coset.wordOf, Array.getElem_ofFn]
    rw [folds.point_leaf leaf hoffset, leafPolynomialOf,
      eval_leafPolynomial round.cosetSize_pos p hpower]

/-- Folding a leaf of the word of a polynomial gives a value of the folded
polynomial. -/
theorem FoldsTo.foldLeaf?_leaf (folds : round.FoldsTo next) (p : F[X]) (challenge : F)
    (leaf : ℕ) :
    round.foldLeaf? challenge leaf
        (round.subgroup.wordOf (round.leafPolynomialOf next p leaf)) =
      .ok ((foldSlices round.cosetSize challenge p).eval (next.point leaf)) := by
  rw [foldLeaf?, foldCoset?_wordOf _ (folds.degree_leafPolynomialOf_lt p leaf),
    leafPolynomialOf, eval_leafPolynomial_div _ _ (round.cosetBase_ne_zero leaf)]

/-- Folding the word of a polynomial gives the word of the folded polynomial. -/
theorem FoldsTo.foldWord?_wordOf (folds : round.FoldsTo next) (p : F[X]) (challenge : F) :
    round.foldWord? (round.domain.wordOf p) challenge =
      .ok (next.wordOf (foldSlices round.cosetSize challenge p)) := by
  have hleaves : (round.blocks (round.domain.wordOf p)).mapIdx (round.foldLeaf? challenge) =
      (next.wordOf (foldSlices round.cosetSize challenge p)).map .ok := by
    rw [blocks, blocksOf_eq_ofFn round.cosetSize_pos (folds.size_wordOf p)]
    apply Array.ext
    · simp
    · intro leaf hleft hright
      have hleaf : leaf < next.size := by simpa using hright
      simp only [Array.getElem_mapIdx, Array.getElem_ofFn, Array.getElem_map, Coset.wordOf]
      rw [← folds.foldLeaf?_leaf p challenge leaf, ← folds.extract_wordOf p hleaf]
      rfl
  rw [foldWord?, hleaves, mapM_id_map_ok]

/-- The folded polynomial fits the next domain. -/
theorem FoldsTo.degree_foldSlices_lt (folds : round.FoldsTo next) (challenge : F) {p : F[X]}
    (hdegree : p.degree < round.domain.size) :
    (foldSlices round.cosetSize challenge p).degree < next.size := by
  apply OracleProofs.degree_foldSlices_lt round.cosetSize_pos
  rwa [folds.size_mul]

end Round

namespace Parameters

/-- In every round of accepted parameters, folding the stored values of a polynomial gives
the stored values, on the next domain, of its parts added up with the powers of the challenge.
Every polynomial has parts, and every word of the length of the domain stores the values of
one. -/
theorem foldWord?_of_accepted {domain : EvaluationDomain F} {degreeBound : ℕ}
    {localization : List ℕ} {parameters : Parameters F}
    (accepted : new? domain degreeBound localization = .ok parameters)
    {place : ℕ} (inside : place < localization.length) :
    ∃ round next, parameters.rounds[place]? = some round ∧
      parameters.domains[place]? = some round.domain ∧
      parameters.domains[place + 1]? = some next ∧
      (∀ coefficients parts challenge,
        IsSplit (2 ^ round.exponent) (polynomialOf coefficients) parts →
        ∃ word, bitReversed? (round.domain.evaluateAll coefficients) = .ok word ∧
          round.foldWord? word challenge = .ok (next.wordOf
            (∑ place ∈ Finset.range (2 ^ round.exponent), C (challenge ^ place) * parts place))) ∧
      (∀ coefficients : Array F,
        ∃ parts, IsSplit (2 ^ round.exponent) (polynomialOf coefficients) parts) ∧
      ∀ word : Array F, word.size = round.domain.size →
        ∃ coefficients : Array F, coefficients.size = round.domain.size ∧
          bitReversed? (round.domain.evaluateAll coefficients) = .ok word := by
  obtain ⟨round, next, hround, -, hdomain, hnext, hfolds⟩ := exists_foldsTo accepted inside
  refine ⟨round, next, hround, hdomain, hnext, ?_, ?_,
    fun _ size => round.domain.exists_evaluateAll size⟩
  · intro coefficients parts challenge hsplit
    refine ⟨round.domain.wordOf (polynomialOf coefficients), ?_, ?_⟩
    · rw [Coset.evaluateAll_eq_valuesOf, Coset.bitReversed?_valuesOf]
    · rw [hfolds.foldWord?_wordOf, round.cosetSize_eq, hsplit.foldSlices_eq]
  · intro coefficients
    exact ⟨_, (isSplit_iff (Nat.two_pow_pos _)).mpr fun _ _ => rfl⟩

/-- The fold by four of `x ^ 5 + 3 * x ^ 2`, whose parts are `x` before the first power and
`3` before the second, under the challenge `5`. -/
theorem foldWord?_halving_then_quartering :
    ∃ round word, halvingThenQuartering.rounds[1]? = some round ∧
      bitReversed? (round.domain.evaluateAll #[0, 0, Residue.ofNat 3, 0, 0, 1]) = .ok word ∧
      round.foldWord? word (Residue.ofNat 5) = .ok (halvingThenQuartering.finalDomain.wordOf
        (C (Residue.ofNat 5) * X + C (Residue.ofNat 75))) := by
  obtain ⟨round, next, hround, -, hnext, hfold, -, -⟩ :=
    foldWord?_of_accepted new?_halvingThenQuartering (by decide : 1 < [1, 2].length)
  let parts (place : ℕ) : BabyBear[X] :=
    if place = 1 then X else if place = 2 then C (Residue.ofNat 3) else 0
  have hsplit : IsSplit 4 (polynomialOf #[0, 0, Residue.ofNat 3, 0, 0, 1]) parts := by
    simp [IsSplit, polynomialOf_eq_sum, Finset.sum_range_succ, parts]
    ring
  have hconstant : (Residue.ofNat 5 ^ 2 * Residue.ofNat 3 : BabyBear) = Residue.ofNat 75 := by
    decide +kernel
  have hsum : ∑ place ∈ Finset.range 4, C (Residue.ofNat 5 ^ place) * parts place =
      C (Residue.ofNat 5) * X + C (Residue.ofNat 75) := by
    rw [← hconstant, C_mul]
    simp [Finset.sum_range_succ, parts]
  cases hround
  cases hnext
  obtain ⟨word, hword, hfolded⟩ := hfold _ _ (Residue.ofNat 5) hsplit
  exact ⟨_, word, rfl, hword, hsum ▸ hfolded⟩

end Parameters
end Fri
end OracleProofs

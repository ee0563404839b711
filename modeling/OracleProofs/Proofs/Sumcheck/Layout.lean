/-
# Leaves across words

Words that are committed together are cut into blocks of neighbours, and a leaf
holds the block of every word with one number, one after the other. The entry of
a word at a position is therefore found in the leaf of the position, behind the
blocks of the words before it.
-/

import Mathlib
import OracleProofs.Proofs.Fri.Completeness
import OracleProofs.Proofs.Merkle.Layout
import OracleProofs.Proofs.Sumcheck.Parameters
import OracleProofs.Sumcheck.Prover

namespace OracleProofs
namespace Sumcheck

open Polynomial

variable {F : Type} [FiniteField F]

/-- The blocks of all words with one number. -/
def sharedLeaf (words : List (Array F)) (cosetSize leaf : ℕ) : Array F :=
  (words.flatMap fun word =>
    (List.range cosetSize).map fun offset => word.getD (leaf * cosetSize + offset) 0).toArray

theorem size_sharedLeaf (words : List (Array F)) (cosetSize leaf : ℕ) :
    (sharedLeaf words cosetSize leaf).size = words.length * cosetSize := by
  simp [sharedLeaf, List.length_flatMap]

/-- The entry of a word stands behind the blocks of the words before it. -/
theorem getElem?_sharedLeaf {words : List (Array F)} {place : ℕ} {word : Array F}
    (hword : words[place]? = some word) {cosetSize offset : ℕ} (inside : offset < cosetSize)
    (leaf : ℕ) :
    (sharedLeaf words cosetSize leaf)[place * cosetSize + offset]? =
      some (word.getD (leaf * cosetSize + offset) 0) := by
  rw [sharedLeaf, List.getElem?_toArray]
  induction words generalizing place with
  | nil => cases hword
  | cons first rest ih =>
      rw [List.flatMap_cons]
      cases place with
      | zero =>
          cases hword
          rw [zero_mul, zero_add, List.getElem?_append_left (by simpa using inside)]
          simp [inside]
      | succ place =>
          have hskip : (place + 1) * cosetSize + offset - cosetSize =
              place * cosetSize + offset := by
            rw [add_mul, one_mul]
            omega
          rw [List.getElem?_append_right (by simp [add_mul]; omega), List.length_map,
            List.length_range, hskip]
          exact ih hword

/-- Whichever offset it starts at, a row takes one entry from every block. -/
private theorem blocks_from_offset (leaves : ℕ) {cosetSize offset : ℕ}
    (inside : offset < cosetSize) :
    (leaves * cosetSize - offset + cosetSize - 1) / cosetSize = leaves := by
  cases leaves with
  | zero =>
      rw [zero_mul]
      exact Nat.div_eq_of_lt (by omega)
  | succ before =>
      apply Nat.div_eq_of_lt_le
      · have hshort : cosetSize ≤ (before + 1) * cosetSize :=
            Nat.le_mul_of_pos_left _ before.succ_pos
        omega
      · rw [Nat.succ_mul (before + 1)]
        omega

/-- The columns of the matrix of blocks are the leaves across the words. -/
theorem columns_cosetMatrix {words : List (Array F)} {cosetSize leaves : ℕ}
    (sizes : ∀ word ∈ words, word.size = leaves * cosetSize) :
    Merkle.Tree.columns (cosetMatrix words cosetSize) leaves =
      Array.ofFn fun leaf : Fin leaves => sharedLeaf words cosetSize leaf := by
  rw [Merkle.Tree.columns]
  congr 1
  funext leaf
  rw [cosetMatrix, sharedLeaf, List.map_toArray, List.map_flatMap]
  congr 1
  apply List.flatMap_congr
  intro word hmem
  rw [List.map_map]
  apply List.map_congr_left
  intro offset hoffset
  have hblock : (leaf : ℕ) < (word.size - offset + cosetSize - 1) / cosetSize := by
    rw [sizes word hmem, blocks_from_offset leaves (List.mem_range.mp hoffset)]
    exact leaf.isLt
  simp [Array.getD_eq_getD_getElem?, hblock]

theorem size_cosetMatrix (words : List (Array F)) (cosetSize : ℕ) :
    (cosetMatrix words cosetSize).size = words.length * cosetSize := by
  simp [cosetMatrix, List.length_flatMap]

/-- All rows of the matrix of blocks have one entry for each block. -/
theorem size_of_mem_cosetMatrix {words : List (Array F)} {cosetSize leaves : ℕ}
    (sizes : ∀ word ∈ words, word.size = leaves * cosetSize)
    {row : Array F} (hmem : row ∈ cosetMatrix words cosetSize) : row.size = leaves := by
  rw [cosetMatrix, List.mem_toArray, List.mem_flatMap] at hmem
  obtain ⟨word, hword, hrow⟩ := hmem
  obtain ⟨offset, hoffset, rfl⟩ := List.mem_map.mp hrow
  rw [Array.size_ofFn, sizes word hword, blocks_from_offset leaves (List.mem_range.mp hoffset)]

private theorem size_of_mem_sharedLeaves {words : List (Array F)} {cosetSize leaves : ℕ}
    {leaf : Array F}
    (hmem : leaf ∈ Array.ofFn fun place : Fin leaves => sharedLeaf words cosetSize place) :
    leaf.size = words.length * cosetSize := by
  obtain ⟨place, rfl⟩ := Array.mem_ofFn.mp hmem
  exact size_sharedLeaf _ _ _

namespace Parameters

/-- The tree over the leaves across words. -/
def sharedTree (parameters : Parameters F) (words : List (Array F)) : Merkle.Tree F :=
  .ofLeaves parameters.treeDepth (Array.ofFn fun leaf : Fin (2 ^ parameters.treeDepth) =>
    sharedLeaf words parameters.cosetSize leaf)

theorem wellFormed_sharedTree (parameters : Parameters F) (words : List (Array F)) :
    (parameters.sharedTree words).WellFormed (words.length * parameters.cosetSize) := by
  apply Merkle.Tree.wellFormed_ofLeaves Array.size_ofFn
  exact fun _ hmem => size_of_mem_sharedLeaves hmem

theorem values_opening_sharedTree (parameters : Parameters F) (words : List (Array F)) {leaf : ℕ}
    (inside : leaf < 2 ^ parameters.treeDepth) :
    ((parameters.sharedTree words).opening leaf).values =
      sharedLeaf words parameters.cosetSize leaf := by
  simp [Merkle.Tree.opening, sharedTree, Merkle.Tree.ofLeaves, Merkle.Tree.ofDigests,
    Array.getD_eq_getD_getElem?, inside]

variable [LawfulField F] {parameters : Parameters F}

/-- A word has one block for each leaf. -/
theorem WellFormed.leaves_mul (wf : parameters.WellFormed) :
    2 ^ parameters.treeDepth * parameters.cosetSize = parameters.codewordLength := by
  obtain ⟨round, rest, next, hrounds, hdomain, hsize, hfolds, -⟩ := wf.fri.exists_first
  have hdepth : parameters.treeDepth = next.dimension := by
    rw [treeDepth, hrounds]
    exact hfolds.treeDepth_eq
  rw [hdepth, cosetSize, codewordLength, Fri.Parameters.codewordLength, hsize, hdomain,
    ← hfolds.size_mul, next.size_eq]

theorem WellFormed.cosetSize_pos (wf : parameters.WellFormed) : 0 < parameters.cosetSize := by
  obtain ⟨round, rest, next, hrounds, hdomain, hsize, hfolds, -⟩ := wf.fri.exists_first
  rw [cosetSize, hsize]
  exact round.cosetSize_pos

theorem WellFormed.leafOf_zero (wf : parameters.WellFormed) (position : ℕ) :
    parameters.fri.leafOf 0 position = position / parameters.cosetSize := by
  obtain ⟨round, rest, next, hrounds, hdomain, hsize, hfolds, -⟩ := wf.fri.exists_first
  rw [Fri.Parameters.leafOf_zero hrounds, cosetSize, hsize]

theorem WellFormed.leafOf_lt (wf : parameters.WellFormed) {position : ℕ}
    (inside : position < parameters.codewordLength) :
    parameters.fri.leafOf 0 position < 2 ^ parameters.treeDepth := by
  rw [wf.leafOf_zero]
  exact Nat.div_lt_of_lt_mul (by rwa [mul_comm, wf.leaves_mul])

/-- Queries inside the words reach leaves inside the trees. -/
theorem WellFormed.leaf_lt (wf : parameters.WellFormed) {queries : List ℕ}
    (inside : ∀ position ∈ queries, position < parameters.codewordLength) {leaf : ℕ}
    (hmem : leaf ∈ parameters.fri.leavesOf 0 queries) : leaf < 2 ^ parameters.treeDepth := by
  obtain ⟨position, hposition, rfl⟩ := Fri.Parameters.mem_leavesOf.mp hmem
  exact wf.leafOf_lt (inside position hposition)

/-- Their leaves are distinct, so there are at most as many as the trees have. -/
theorem WellFormed.length_leavesOf_le (wf : parameters.WellFormed) {queries : List ℕ}
    (inside : ∀ position ∈ queries, position < parameters.codewordLength) :
    (parameters.fri.leavesOf 0 queries).length ≤ 2 ^ parameters.treeDepth := by
  have hdistinct : (parameters.fri.leavesOf 0 queries).Nodup :=
    (pairwise_sortedDistinct _).imp ne_of_lt
  have hsubset : (parameters.fri.leavesOf 0 queries).toFinset ⊆
      Finset.range (2 ^ parameters.treeDepth) := by
    intro leaf hmem
    rw [Finset.mem_range]
    exact wf.leaf_lt inside (List.mem_toFinset.mp hmem)
  rw [← List.toFinset_card_of_nodup hdistinct, ← Finset.card_range (2 ^ parameters.treeDepth)]
  exact Finset.card_le_card hsubset

/-- Queries inside the words can be opened in the tree of any words. -/
theorem WellFormed.ofTree?_sharedTree (wf : parameters.WellFormed) (words : List (Array F))
    {queries : List ℕ} (inside : ∀ position ∈ queries, position < parameters.codewordLength) :
    Merkle.Batch.ofTree? (parameters.sharedTree words) (parameters.fri.leavesOf 0 queries) =
      .ok (.ofLeaves (parameters.sharedTree words) (parameters.fri.leavesOf 0 queries)) := by
  apply Merkle.Batch.ofTree?_eq_ok
  intro leaf hmem
  rw [(parameters.wellFormed_sharedTree words).size]
  exact wf.leaf_lt inside hmem

/-- These openings are accepted under the root and the shape of the tree. -/
theorem WellFormed.verifyAgainst_sharedTree (wf : parameters.WellFormed)
    {words : List (Array F)} {wordCount : ℕ} (count : words.length = wordCount)
    {queries : List ℕ} (inside : ∀ position ∈ queries, position < parameters.codewordLength) :
    (Merkle.Batch.ofLeaves (parameters.sharedTree words)
        (parameters.fri.leavesOf 0 queries)).verifyAgainst (parameters.sharedTree words).root
      (wordCount * parameters.cosetSize) parameters.treeDepth = true := by
  subst count
  exact Merkle.Batch.verifyAgainst_ofLeaves (parameters.wellFormed_sharedTree words)
    fun _ => wf.leaf_lt inside

/-- A position of a leaf is a position of the words. -/
theorem WellFormed.position_lt (wf : parameters.WellFormed) {leaf offset : ℕ}
    (hleaf : leaf < 2 ^ parameters.treeDepth) (hoffset : offset < parameters.cosetSize) :
    leaf * parameters.cosetSize + offset < parameters.codewordLength := by
  have hnext := Nat.mul_le_mul_right parameters.cosetSize hleaf
  rw [Nat.succ_mul, wf.leaves_mul] at hnext
  omega

/-- An opened leaf holds the values of every committed polynomial at its points. -/
theorem WellFormed.getElem?_opening (wf : parameters.WellFormed) {words : List (Array F)}
    {place : ℕ} {p : F[X]} (hword : words[place]? = some (parameters.codewordDomain.wordOf p))
    {leaf offset : ℕ} (hleaf : leaf < 2 ^ parameters.treeDepth)
    (hoffset : offset < parameters.cosetSize) :
    ((parameters.sharedTree words).opening leaf).values[place * parameters.cosetSize + offset]? =
      some (p.eval (parameters.point (leaf * parameters.cosetSize + offset))) := by
  rw [parameters.values_opening_sharedTree words hleaf, getElem?_sharedLeaf hword hoffset,
    parameters.getD_wordOf p (wf.position_lt hleaf hoffset)]

/-- Words over the codeword domain, of which there must be one, can be committed. -/
theorem WellFormed.commitWords?_eq_ok (wf : parameters.WellFormed) {words : List (Array F)}
    (nonempty : words ≠ []) (sizes : ∀ word ∈ words, word.size = parameters.codewordLength) :
    Prover.commitWords? parameters words = .ok (parameters.sharedTree words) := by
  have hsizes : ∀ word ∈ words, word.size = 2 ^ parameters.treeDepth * parameters.cosetSize := by
    rwa [wf.leaves_mul]
  have hpositive := Nat.mul_pos (List.length_pos_iff.mpr nonempty) wf.cosetSize_pos
  have hrectangular : Merkle.Rectangular (cosetMatrix words parameters.cosetSize)
      (2 ^ parameters.treeDepth) :=
    { rows_pos := by rwa [size_cosetMatrix]
      width_pos := Nat.two_pow_pos _
      size_row := fun _ => size_of_mem_cosetMatrix hsizes }
  have hcommit : Merkle.Tree.ofLeaves? (Array.ofFn fun leaf : Fin (2 ^ parameters.treeDepth) =>
      sharedLeaf words parameters.cosetSize leaf) = .ok (parameters.sharedTree words) :=
    Merkle.Tree.ofLeaves?_eq_ok Array.size_ofFn hpositive
      fun _ hmem => size_of_mem_sharedLeaves hmem
  rw [Prover.commitWords?, Merkle.Tree.commit?_of_rectangular hrectangular, Merkle.Layout.lines,
    columns_cosetMatrix hsizes, hcommit, mapError_ok]

end Parameters

end Sumcheck
end OracleProofs

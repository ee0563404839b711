/-
# Columns are leaves

The matrix of blocks is built row by row: each word contributes one row for each
place within a block, and a row skips from block to block. Its columns are read off
the other way, and then hold whole blocks of neighbours, those of the first word
first. For a single word these are the blocks that the low-degree test commits, so
both ways to a tree end at the same one.
-/

import Mathlib
import OracleProofs.Proofs.Sumcheck.Layout

namespace OracleProofs
namespace Sumcheck

variable {F : Type} [FiniteField F]

section Blocks

variable {cosetSize leaves leaf : ℕ}

/-- The entries of a block, taken place by place, are the block. -/
theorem map_getD_block {word : Array F} (whole : word.size = leaves * cosetSize)
    (inside : leaf < leaves) :
    ((List.range cosetSize).map fun offset => word.getD (leaf * cosetSize + offset) 0) =
      (word.extract (leaf * cosetSize) ((leaf + 1) * cosetSize)).toList := by
  have hsize := Fri.size_block whole inside
  apply List.ext_getElem
  · rw [List.length_map, List.length_range, Array.length_toList, hsize]
  · intro offset hleft hright
    have hin : leaf * cosetSize + offset < word.size := by
      rw [Array.length_toList, Array.size_extract] at hright
      omega
    simp [Array.getD_eq_getD_getElem?, hin]

/-- A leaf across words is made of the blocks of the words. -/
theorem sharedLeaf_eq_flatMap {words : List (Array F)}
    (whole : ∀ word ∈ words, word.size = leaves * cosetSize) (inside : leaf < leaves) :
    sharedLeaf words cosetSize leaf =
      (words.flatMap fun word =>
        (word.extract (leaf * cosetSize) ((leaf + 1) * cosetSize)).toList).toArray := by
  rw [sharedLeaf]
  congr 1
  exact List.flatMap_congr fun word hmem => map_getD_block (whole word hmem) inside

/-- The columns of the matrix of a single word are the blocks of the word. -/
theorem columns_cosetMatrix_singleton {word : Array F} (positive : 0 < cosetSize)
    (whole : word.size = leaves * cosetSize) :
    Merkle.Tree.columns (cosetMatrix [word] cosetSize) leaves = Fri.blocksOf cosetSize word := by
  have hwhole : ∀ other ∈ [word], other.size = leaves * cosetSize := by simpa using whole
  rw [columns_cosetMatrix hwhole, Fri.blocksOf_eq_ofFn positive whole]
  congr 1
  funext leaf
  rw [sharedLeaf_eq_flatMap hwhole leaf.isLt, List.flatMap_singleton, Array.toArray_toList]

/-- A single word has the same tree as in the low-degree test. -/
theorem commit?_cosetMatrix_singleton {word : Array F} (positive : 0 < cosetSize)
    (nonempty : 0 < leaves) (whole : word.size = leaves * cosetSize) :
    Merkle.Tree.commit? (cosetMatrix [word] cosetSize) .columns =
      Fri.commitBlocks? cosetSize word := by
  have hrectangular : Merkle.Rectangular (cosetMatrix [word] cosetSize) leaves :=
    { rows_pos := by simpa [size_cosetMatrix] using positive
      width_pos := nonempty
      size_row := fun _ => size_of_mem_cosetMatrix (by simpa using whole) }
  rw [Merkle.Tree.commit?_of_rectangular hrectangular, Merkle.Layout.lines,
    columns_cosetMatrix_singleton positive whole, Fri.commitBlocks?]

/-- A word with a power of two many blocks is committed by them. -/
theorem exists_commitBlocks? {word : Array F} {depth : ℕ} (positive : 0 < cosetSize)
    (whole : word.size = 2 ^ depth * cosetSize) :
    ∃ tree, Fri.commitBlocks? cosetSize word = .ok tree ∧
      tree.Exact depth cosetSize fun leaf values =>
        values = word.extract (leaf * cosetSize) ((leaf + 1) * cosetSize) := by
  have hcount := Fri.size_blocksOf positive whole
  have hwidths := fun block (hmem : block ∈ Fri.blocksOf cosetSize word) =>
    Fri.size_of_mem_blocksOf positive whole hmem
  refine ⟨_, Merkle.Tree.ofLeaves?_eq_ok hcount positive hwidths,
    Merkle.Tree.exact_ofLeaves hcount hwidths fun leaf values hvalues => ?_⟩
  rw [Fri.blocksOf_eq_ofFn positive whole] at hvalues
  obtain ⟨hinside, rfl⟩ := Array.getElem?_eq_some_iff.mp hvalues
  rw [Array.getElem_ofFn]

end Blocks

/-- The matrix of blocks has one row for each place of a block in each word and one column for
each block, which holds the blocks of the words one below the other. Committing the columns of a
single word is committing its blocks as the low-degree test does. -/
theorem cosetMatrix_exact {words : List (Array F)} {length cosetSize : ℕ}
    (sizes : ∀ word ∈ words, word.size = length) (divides : cosetSize ∣ length) :
    (cosetMatrix words cosetSize).size = words.length * cosetSize ∧
    (∀ row ∈ cosetMatrix words cosetSize, row.size = length / cosetSize) ∧
    (∀ column < length / cosetSize,
      Merkle.Layout.columns.Shows (cosetMatrix words cosetSize) column
        (words.flatMap fun word =>
          (word.extract (column * cosetSize) ((column + 1) * cosetSize)).toList).toArray) ∧
    ∀ word, words = [word] → ∀ depth, length / cosetSize = 2 ^ depth →
      ∃ tree, Merkle.Tree.commit? (cosetMatrix words cosetSize) .columns = .ok tree ∧
        Fri.commitBlocks? cosetSize word = .ok tree ∧
        tree.Exact depth cosetSize fun leaf values =>
          values = word.extract (leaf * cosetSize) ((leaf + 1) * cosetSize) := by
  have hwhole : ∀ word ∈ words, word.size = length / cosetSize * cosetSize := by
    rwa [Nat.div_mul_cancel divides]
  have hrows : ∀ row ∈ cosetMatrix words cosetSize, row.size = length / cosetSize :=
    fun _ => size_of_mem_cosetMatrix hwhole
  refine ⟨size_cosetMatrix words cosetSize, hrows, fun column inside => ?_, ?_⟩
  · have hcolumn := congrArg (fun columns => columns[column]?) (columns_cosetMatrix hwhole)
    rw [← sharedLeaf_eq_flatMap hwhole inside]
    simp only [Merkle.Tree.columns, Array.getElem?_ofFn, inside, dite_true,
      Option.some.injEq] at hcolumn
    rw [← hcolumn]
    exact Merkle.Layout.shows_column hrows inside
  · rintro word rfl depth hdepth
    have hleaves : 0 < length / cosetSize := hdepth ▸ Nat.two_pow_pos depth
    -- blocks of no entries would leave no column
    have hpositive : 0 < cosetSize :=
      Nat.pos_of_ne_zero fun hzero => by simp [hzero] at hleaves
    have hword := hwhole word (List.mem_singleton.mpr rfl)
    rw [commit?_cosetMatrix_singleton hpositive hleaves hword]
    rw [hdepth] at hword
    obtain ⟨tree, hcommit, hexact⟩ := exists_commitBlocks? hpositive hword
    exact ⟨tree, hcommit, hcommit, hexact⟩

/-- A word of two blocks of three. -/
def sixes : Array BabyBear := #[0, 1, .ofNat 2, .ofNat 3, .ofNat 4, .ofNat 5]

theorem cosetMatrix_exact_at_sixes :
    Merkle.Layout.columns.Shows (cosetMatrix [sixes, sixes.map (100 + ·)] 3) 1
        #[3, 4, 5, 103, 104, 105] ∧
      ∃ tree, Merkle.Tree.commit? (cosetMatrix [sixes] 3) .columns = .ok tree ∧
        Fri.commitBlocks? 3 sixes = .ok tree := by
  have hdivides : 3 ∣ 6 := by decide
  have hboth : ∀ word ∈ [sixes, sixes.map (100 + ·)], word.size = 6 := by simp [sixes]
  have hsingle : ∀ word ∈ [sixes], word.size = 6 := by simp [sixes]
  obtain ⟨-, -, hcolumns, -⟩ := cosetMatrix_exact hboth hdivides
  obtain ⟨-, -, -, hcommit⟩ := cosetMatrix_exact hsingle hdivides
  have hcolumn : (([sixes, sixes.map (100 + ·)].flatMap fun word =>
      (word.extract (1 * 3) ((1 + 1) * 3)).toList).toArray) = #[3, 4, 5, 103, 104, 105] := by
    decide +kernel
  obtain ⟨tree, hcolumnwise, hblocks, -⟩ := hcommit sixes rfl 1 (by decide)
  exact ⟨hcolumn ▸ hcolumns 1 (by decide), tree, hcolumnwise, hblocks⟩

end Sumcheck
end OracleProofs

/-
# What a matrix commits to

The leaves of a tree are the columns or the rows of a matrix, or the elements of a
list one by one. Every opening shows the line of its index, and it is accepted under
the root for the width and the depth of the tree and for no others. The checks before
a commitment are complete: a matrix that is refused has no entry in its first row, or
a row of another length, or a number of leaves that is not a power of two.
-/

import Mathlib
import OracleProofs.Proofs.Field.Prime
import OracleProofs.Proofs.Merkle.Tree

namespace OracleProofs
namespace Merkle

variable {F : Type}

/-- There is a row, and all rows have the same positive number of entries. -/
structure Rectangular (matrix : Array (Array F)) (width : ℕ) : Prop where
  rows_pos : 0 < matrix.size
  width_pos : 0 < width
  size_row : ∀ row ∈ matrix, row.size = width

/-- The entry of a matrix in a row and a column. -/
def cell? (matrix : Array (Array F)) (row column : ℕ) : Option F :=
  matrix[row]?.bind fun (entries : Array F) => entries[column]?

/-- The rows of the other matrix are the columns of a matrix. -/
structure IsTranspose (matrix other : Array (Array F)) : Prop where
  size_row : ∀ row ∈ matrix, row.size = other.size
  size_column : ∀ column ∈ other, column.size = matrix.size
  entry : ∀ row column, cell? other column row = cell? matrix row column

namespace Layout

/-- The number of leaves of a matrix whose rows have `width` entries. -/
def leafCount (layout : Layout) (matrix : Array (Array F)) (width : ℕ) : ℕ :=
  match layout with
  | .columns => width
  | .rows => matrix.size

/-- The number of values in each of these leaves. -/
def leafWidth (layout : Layout) (matrix : Array (Array F)) (width : ℕ) : ℕ :=
  match layout with
  | .columns => matrix.size
  | .rows => width

/-- The values are the entries of one column or of one row. -/
def Shows (layout : Layout) (matrix : Array (Array F)) (index : ℕ) (values : Array F) : Prop :=
  match layout with
  | .columns =>
      values.size = matrix.size ∧ ∀ row, values[row]? = cell? matrix row index
  | .rows => matrix[index]? = some values

variable [FiniteField F]

/-- The lines that become leaves. -/
def lines (layout : Layout) (matrix : Array (Array F)) (width : ℕ) : Array (Array F) :=
  match layout with
  | .columns => Tree.columns matrix width
  | .rows => matrix

variable {layout : Layout} {matrix : Array (Array F)} {width : ℕ}

theorem size_lines : (layout.lines matrix width).size = layout.leafCount matrix width := by
  cases layout with
  | columns => exact Array.size_ofFn
  | rows => rfl

theorem size_of_mem_lines (rectangular : Rectangular matrix width) {line : Array F}
    (hmem : line ∈ layout.lines matrix width) :
    line.size = layout.leafWidth matrix width := by
  cases layout with
  | columns =>
      obtain ⟨column, rfl⟩ := Array.mem_ofFn.mp hmem
      exact Array.size_map
  | rows => exact rectangular.size_row line hmem

omit [FiniteField F] in
theorem leafWidth_pos (rectangular : Rectangular matrix width) :
    0 < layout.leafWidth matrix width := by
  cases layout with
  | columns => exact rectangular.rows_pos
  | rows => exact rectangular.width_pos

/-- A column is read off row by row. -/
theorem shows_column (rows : ∀ row ∈ matrix, row.size = width) {column : ℕ}
    (inside : column < width) :
    Layout.columns.Shows matrix column (matrix.map fun row => row.getD column 0) := by
  refine ⟨Array.size_map, fun row => ?_⟩
  rw [Array.getElem?_map, cell?]
  cases hrow : matrix[row]? with
  | none => rfl
  | some entries =>
      have hsize := rows entries (Array.mem_of_getElem? hrow)
      simp [Array.getD_eq_getD_getElem?, hsize, inside]

/-- A line shows the entries of its column or its row. -/
theorem shows_of_getElem?_lines (rectangular : Rectangular matrix width) {index : ℕ}
    {values : Array F} (hvalues : (layout.lines matrix width)[index]? = some values) :
    layout.Shows matrix index values := by
  cases layout with
  | rows => exact hvalues
  | columns =>
      obtain ⟨hinside, rfl⟩ := Array.getElem?_eq_some_iff.mp hvalues
      simp only [lines, Tree.columns, Array.getElem_ofFn]
      exact shows_column rectangular.size_row (by simpa [lines, Tree.columns] using hinside)

end Layout

namespace Tree

section Commitment

variable [FiniteField F] {layout : Layout} {matrix : Array (Array F)} {width : ℕ}

/-- A rectangular matrix is committed by its lines. -/
theorem commit?_of_rectangular (rectangular : Rectangular matrix width) :
    commit? matrix layout = ofLeaves? (layout.lines matrix width) := by
  have hwidth := size_getD_zero rectangular.rows_pos rectangular.size_row
  have hragged := findIdx?_size_ne rectangular.size_row
  cases layout <;>
    simp only [commit?, hwidth, if_neg rectangular.width_pos.ne', hragged, Layout.lines]

theorem commit?_eq_ok (rectangular : Rectangular matrix width) {depth : ℕ}
    (count : layout.leafCount matrix width = 2 ^ depth) :
    commit? matrix layout = .ok (ofLeaves depth (layout.lines matrix width)) := by
  rw [commit?_of_rectangular rectangular]
  exact ofLeaves?_eq_ok (Layout.size_lines.trans count) (Layout.leafWidth_pos rectangular)
    fun _ => Layout.size_of_mem_lines rectangular

theorem commit?_of_forall_ne (rectangular : Rectangular matrix width)
    (irregular : ∀ depth, layout.leafCount matrix width ≠ 2 ^ depth) :
    commit? matrix layout =
      .error (.leafCountNotPowerOfTwo (layout.leafCount matrix width)) := by
  rw [← Layout.size_lines] at irregular ⊢
  rw [commit?_of_rectangular rectangular, ofLeaves?_of_forall_ne irregular]

theorem commit?_of_empty (empty : matrix[0]? = none ∨ matrix[0]? = some #[]) :
    commit? matrix layout = .error .emptyMatrix := by
  have hwidth : (matrix.getD 0 #[]).size = 0 := by
    rw [Array.getD_eq_getD_getElem?]
    rcases empty with hnone | hsome
    · rw [hnone]
      rfl
    · rw [hsome]
      rfl
  simp only [commit?, hwidth, if_true]

/-- The row that is reported is the first one that differs. -/
theorem commit?_of_ragged {first differing : Array F} {row : ℕ} (hfirst : matrix[0]? = some first)
    (nonempty : first ≠ #[]) (hrow : matrix[row]? = some differing)
    (differs : differing.size ≠ first.size)
    (earlier : ∀ before < row, ∀ line, matrix[before]? = some line → line.size = first.size) :
    commit? matrix layout = .error (.raggedMatrix row) := by
  have hwidth : (matrix.getD 0 #[]).size = first.size := by
    rw [Array.getD_eq_getD_getElem?, hfirst, Option.getD_some]
  have hpositive : first.size ≠ 0 := fun hzero => nonempty (Array.size_eq_zero_iff.mp hzero)
  obtain ⟨hinside, rfl⟩ := Array.getElem?_eq_some_iff.mp hrow
  have hragged : matrix.findIdx? (fun line => decide (line.size ≠ first.size)) = some row := by
    rw [Array.findIdx?_eq_some_iff_getElem]
    refine ⟨hinside, decide_eq_true differs, fun before hbefore => ?_⟩
    have hsame := earlier before hbefore _ (Array.getElem?_eq_getElem (hbefore.trans hinside))
    simp [hsame]
  simp only [commit?, hwidth, if_neg hpositive, hragged]

omit [FiniteField F] in
/-- A matrix without rows or without columns is empty, whichever way it is turned. -/
private theorem empty_of_size_eq_zero {other : Array (Array F)}
    (sizes : ∀ column ∈ other, column.size = 0) : other[0]? = none ∨ other[0]? = some #[] := by
  cases hfirst : other[0]? with
  | none => exact .inl rfl
  | some column =>
      have hzero := sizes column (Array.mem_of_getElem? hfirst)
      rw [Array.size_eq_zero_iff] at hzero
      exact .inr (congrArg some hzero)

/-- Committing columns is committing the rows of the transpose. -/
theorem commit?_transpose {other : Array (Array F)} (transpose : IsTranspose matrix other) :
    commit? matrix .columns = commit? other .rows := by
  by_cases hrows : matrix.size = 0
  · have hnone : matrix[0]? = none := Array.getElem?_eq_none hrows.le
    have hother := empty_of_size_eq_zero fun column hmem =>
      (transpose.size_column column hmem).trans hrows
    rw [commit?_of_empty (.inl hnone), commit?_of_empty hother]
  by_cases hcolumns : other.size = 0
  · have hnone : other[0]? = none := Array.getElem?_eq_none hcolumns.le
    have hmatrix := empty_of_size_eq_zero fun row hmem =>
      (transpose.size_row row hmem).trans hcolumns
    rw [commit?_of_empty (.inl hnone), commit?_of_empty hmatrix]
  have hmatrix : Rectangular matrix other.size :=
    ⟨Nat.pos_of_ne_zero hrows, Nat.pos_of_ne_zero hcolumns, transpose.size_row⟩
  have hother : Rectangular other matrix.size :=
    ⟨Nat.pos_of_ne_zero hcolumns, Nat.pos_of_ne_zero hrows, transpose.size_column⟩
  rw [commit?_of_rectangular hmatrix, commit?_of_rectangular hother]
  refine congrArg ofLeaves? (Array.ext Layout.size_lines fun index hleft hright => ?_)
  have hshows : Layout.columns.Shows matrix index _ :=
    Layout.shows_of_getElem?_lines hmatrix (Array.getElem?_eq_getElem hleft)
  have hline : other[index]? = some (Layout.rows.lines other matrix.size)[index] :=
    Array.getElem?_eq_getElem hright
  refine Array.ext_getElem? fun row => ?_
  rw [hshows.2 row, ← transpose.entry, cell?, hline, Option.bind_some]

/-- A list of elements is committed like a matrix of one row by its columns, and like a
matrix of one column by its rows. -/
theorem ofVector?_eq_commit? {values : Array F} (nonempty : 0 < values.size) :
    ofVector? values = commit? #[values] .columns ∧
      ofVector? values = commit? (values.map fun value => #[value]) .rows := by
  have hrow : Rectangular #[values] values.size := ⟨one_pos, nonempty, by simp⟩
  have hcolumn : Rectangular (values.map fun value => #[value]) 1 :=
    ⟨by rwa [Array.size_map], one_pos, by simp⟩
  rw [ofVector?_eq_ofLeaves?, commit?_of_rectangular hrow, commit?_of_rectangular hcolumn]
  refine ⟨congrArg ofLeaves? (Array.ext ?_ fun index hleft hright => ?_), rfl⟩
  · rw [Array.size_map, Layout.size_lines, Layout.leafCount]
  · simp [Layout.lines, columns]

end Commitment

section Exactness

variable [FiniteField F]

/-- A tree has `2 ^ depth` leaves of `width` values and shows them: each index opens to
an opening of its leaf, a list of indices to a batch of these openings, and they are
accepted under the root of the tree for its own shape only. -/
structure Exact (tree : Tree F) (depth width : ℕ) (shows : ℕ → Array F → Prop) : Prop where
  depth_eq : tree.depth = depth
  leafCount_eq : tree.leafCount = 2 ^ depth
  leafWidth_eq : tree.leafWidth = width
  opens : ∀ index < 2 ^ depth, ∃ opening, tree.open? index = .ok opening ∧
    opening.index = index ∧ shows index opening.values ∧ opening.path.length = depth ∧
      ∀ otherWidth otherDepth, tree.root.verify opening otherWidth otherDepth = true ↔
        otherWidth = width ∧ otherDepth = depth
  batches : ∀ queries : List ℕ, (∀ query ∈ queries, query < 2 ^ depth) →
    ∃ batch, Batch.ofTree? tree queries = .ok batch ∧ batch.queries = queries ∧
      tree.openAll? queries = .ok batch.openings ∧ batch.verify = true ∧
        ∀ root otherWidth otherDepth, batch.verifyAgainst root otherWidth otherDepth = true ↔
          root = tree.root ∧ (queries = [] ∨ (otherWidth = width ∧ otherDepth = depth))

theorem exact_ofLeaves {leaves : Array (Array F)} {depth width : ℕ}
    (size : leaves.size = 2 ^ depth) (widths : ∀ leaf ∈ leaves, leaf.size = width)
    {shows : ℕ → Array F → Prop}
    (shown : ∀ index values, leaves[index]? = some values → shows index values) :
    (ofLeaves depth leaves).Exact depth width shows where
  depth_eq := rfl
  leafCount_eq := size
  leafWidth_eq := size_getD_zero (size ▸ Nat.two_pow_pos depth) widths
  opens index inside := by
    have hwf := wellFormed_ofLeaves size widths
    have hsize : index < leaves.size := by rwa [size]
    refine ⟨_, open?_eq_ok hsize, rfl, shown index _ ?_, hwf.length_path index,
      fun otherWidth otherDepth => hwf.verify_opening_iff inside⟩
    show leaves[index]? = some (leaves.getD index #[])
    rw [Array.getD_eq_getD_getElem?, Array.getElem?_eq_getElem hsize, Option.getD_some]
  batches queries inside := by
    have hwf := wellFormed_ofLeaves size widths
    have hsize : ∀ query ∈ queries, query < leaves.size := by rwa [size]
    exact ⟨_, Batch.ofTree?_eq_ok hsize, rfl, openAll?_eq_ok hsize,
      Batch.verify_ofLeaves hwf inside, fun root otherWidth otherDepth =>
        Batch.verifyAgainst_ofLeaves_iff hwf inside⟩

/-- Whatever is committed can be opened and is accepted for its own shape only, and
whatever cannot be committed is refused for the first reason that applies. -/
theorem exact_of_commitment :
    (∀ (matrix : Array (Array F)) (layout : Layout) (width depth : ℕ),
      Rectangular matrix width → layout.leafCount matrix width = 2 ^ depth →
        ∃ tree, commit? matrix layout = .ok tree ∧
          tree.Exact depth (layout.leafWidth matrix width) (layout.Shows matrix)) ∧
    (∀ (values : Array F) (depth : ℕ), values.size = 2 ^ depth →
      ∃ tree, ofVector? values = .ok tree ∧
        tree.Exact depth 1 fun index shown =>
          ∃ value, values[index]? = some value ∧ shown = #[value]) ∧
    (∀ values : Array F, (∀ depth, values.size ≠ 2 ^ depth) →
      ofVector? values = .error (.leafCountNotPowerOfTwo values.size)) ∧
    (∀ (matrix : Array (Array F)) (layout : Layout),
      (matrix[0]? = none ∨ matrix[0]? = some #[] →
        commit? matrix layout = .error .emptyMatrix) ∧
      (∀ first row differing, matrix[0]? = some first → first ≠ #[] →
        matrix[row]? = some differing → differing.size ≠ first.size →
        (∀ before < row, ∀ line, matrix[before]? = some line → line.size = first.size) →
          commit? matrix layout = .error (.raggedMatrix row)) ∧
      ∀ width, Rectangular matrix width →
        (∀ depth, layout.leafCount matrix width ≠ 2 ^ depth) →
          commit? matrix layout =
            .error (.leafCountNotPowerOfTwo (layout.leafCount matrix width))) := by
  refine ⟨?_, ?_, ?_, fun matrix layout => ⟨commit?_of_empty, ?_, ?_⟩⟩
  · intro matrix layout width depth rectangular count
    refine ⟨_, commit?_eq_ok rectangular count, exact_ofLeaves (Layout.size_lines.trans count)
      (fun _ => Layout.size_of_mem_lines rectangular) ?_⟩
    exact fun index values => Layout.shows_of_getElem?_lines rectangular
  · intro values depth size
    have hsize : (values.map fun value => #[value]).size = 2 ^ depth := by
      rw [Array.size_map, size]
    have hwidths : ∀ leaf ∈ values.map fun value => #[value], leaf.size = 1 := by
      intro leaf hmem
      obtain ⟨value, -, rfl⟩ := Array.mem_map.mp hmem
      rfl
    refine ⟨ofLeaves depth (values.map fun value => #[value]), ?_,
      exact_ofLeaves hsize hwidths fun index shown hshown => ?_⟩
    · rw [ofVector?_eq_ofLeaves?, ofLeaves?_eq_ok hsize one_pos hwidths]
    · rw [Array.getElem?_map, Option.map_eq_some_iff] at hshown
      obtain ⟨value, hvalue, rfl⟩ := hshown
      exact ⟨value, hvalue, rfl⟩
  · intro values irregular
    have hsize : (values.map fun value => #[value]).size = values.size := Array.size_map
    rw [← hsize] at irregular ⊢
    rw [ofVector?_eq_ofLeaves?, ofLeaves?_of_forall_ne irregular]
  · intro first row differing hfirst nonempty hrow differs earlier
    exact commit?_of_ragged hfirst nonempty hrow differs earlier
  · intro width rectangular irregular
    exact commit?_of_forall_ne rectangular irregular

/-- A square matrix shows its columns, a longer row is reported, and three columns are
too many for one level and too few for two. -/
theorem exact_of_two_columns :
    let square : Array (Array BabyBear) := #[#[0, 1], #[1, 1]]
    let ragged : Array (Array BabyBear) := #[#[0, 1], #[0, 1, 1], #[0]]
    let wide : Array (Array BabyBear) := #[#[0, 1, 1]]
    (∃ tree, commit? square .columns = .ok tree ∧
      tree.Exact 1 2 (Layout.columns.Shows square)) ∧
    (∃ tree, ofVector? #[(0 : BabyBear), 1] = .ok tree ∧
      tree.Exact 1 1 fun index shown =>
        ∃ value, #[(0 : BabyBear), 1][index]? = some value ∧ shown = #[value]) ∧
    ofVector? #[(0 : BabyBear), 1, 1] = .error (.leafCountNotPowerOfTwo 3) ∧
    commit? #[(#[] : Array BabyBear), #[0]] .rows = .error .emptyMatrix ∧
    commit? ragged .rows = .error (.raggedMatrix 1) ∧
    commit? wide .columns = .error (.leafCountNotPowerOfTwo 3) := by
  intro square ragged wide
  have hthree : ∀ depth, 3 ≠ 2 ^ depth := by
    intro depth hthree
    have hlarge : 2 ^ depth < 2 ^ 2 := hthree ▸ Nat.lt_succ_self 3
    have hdepth : depth < 2 := (Nat.pow_lt_pow_iff_right one_lt_two).mp hlarge
    interval_cases depth <;> omega
  have hsquare : Rectangular square 2 := ⟨Nat.two_pos, Nat.two_pos, by simp [square]⟩
  have hwide : Rectangular wide 3 := ⟨Nat.one_pos, Nat.succ_pos 2, by simp [wide]⟩
  obtain ⟨hmatrix, hvector, hirregular, hrefused⟩ := exact_of_commitment (F := BabyBear)
  refine ⟨hmatrix square .columns 2 1 hsquare rfl, hvector #[0, 1] 1 rfl,
    hirregular #[0, 1, 1] hthree, (hrefused _ .rows).1 (.inr rfl), ?_,
    (hrefused wide .columns).2.2 3 hwide hthree⟩
  have hnonempty : (#[0, 1] : Array BabyBear) ≠ #[] := by simp
  have hdiffers : (#[0, 1, 1] : Array BabyBear).size ≠ (#[0, 1] : Array BabyBear).size := by simp
  refine (hrefused ragged .rows).2.1 _ 1 _ rfl hnonempty rfl hdiffers fun before hbefore row => ?_
  rw [Nat.lt_one_iff.mp hbefore]
  rintro ⟨⟩
  rfl

end Exactness

end Tree
end Merkle
end OracleProofs

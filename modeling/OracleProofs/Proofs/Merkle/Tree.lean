/-
# Committed leaves can be opened

A tree is well formed if its levels are those above the digests of its leaves.
Climbing from a leaf along the digests beside it then passes through one digest
of every level and ends at the root, so every leaf opens to a proof that the
verifier accepts, and so does every batch of leaves.
-/

import Mathlib
import OracleProofs.Merkle.Tree
import OracleProofs.Proofs.Binary.Reversal
import OracleProofs.Proofs.Fault

namespace OracleProofs
namespace Merkle

section Levels

theorem size_pairUp (level : Array Digest) : (pairUp level).size = level.size / 2 :=
  Array.size_ofFn

theorem getD_pairUp_of_lt (level : Array Digest) {place : ℕ} (inside : place < level.size / 2) :
    (pairUp level).getD place default =
      hashPair (level.getD (2 * place) default) (level.getD (2 * place + 1) default) := by
  rw [pairUp, Array.getD_eq_getD_getElem?, Array.getElem?_eq_getElem (by simpa using inside),
    Option.getD_some, Array.getElem_ofFn]

/-- The parent of a digest and its sibling stands at half the index. -/
theorem getD_pairUp (level : Array Digest) {index : ℕ} (inside : index / 2 < level.size / 2) :
    (pairUp level).getD (index / 2) default =
      if index % 2 = 0 then
        hashPair (level.getD index default) (level.getD (sibling index) default)
      else hashPair (level.getD (sibling index) default) (level.getD index default) := by
  rw [getD_pairUp_of_lt level inside, sibling]
  by_cases heven : index % 2 = 0
  · have hstart : 2 * (index / 2) = index := by omega
    rw [if_pos heven, if_pos heven, hstart]
  · have hstart : 2 * (index / 2) = index - 1 := by omega
    have hend : index - 1 + 1 = index := by omega
    rw [if_neg heven, if_neg heven, hstart, hend]

theorem length_buildLevels (depth : ℕ) (level : Array Digest) :
    (buildLevels depth level).1.length = depth := by
  induction depth generalizing level with
  | zero => rfl
  | succ depth ih =>
      show (level :: (buildLevels depth (pairUp level)).1).length = depth + 1
      rw [List.length_cons, ih]

@[simp]
theorem length_siblingPath (levels : List (Array Digest)) (index : ℕ) :
    (siblingPath levels index).length = levels.length := by
  induction levels generalizing index with
  | nil => rfl
  | cons level above ih => rw [siblingPath, List.length_cons, List.length_cons, ih]

/-- The siblings of a digest lead from it to the root. -/
theorem climb_siblingPath {depth : ℕ} {level : Array Digest} (size : level.size = 2 ^ depth)
    {index : ℕ} (inside : index < 2 ^ depth) :
    climb (level.getD index default) index (siblingPath (buildLevels depth level).1 index) =
      (buildLevels depth level).2 := by
  induction depth generalizing level index with
  | zero =>
      have hzero : index = 0 := by simpa using inside
      rw [hzero]
      rfl
  | succ depth ih =>
      rw [pow_succ] at size inside
      have hhalf : level.size / 2 = 2 ^ depth := by omega
      have hinside : index / 2 < 2 ^ depth := by omega
      have hparent := getD_pairUp level (by rwa [hhalf] : index / 2 < level.size / 2)
      show climb (if index % 2 = 0 then _ else _) (index / 2)
          (siblingPath (buildLevels depth (pairUp level)).1 (index / 2)) =
        (buildLevels depth (pairUp level)).2
      rw [← hparent]
      exact ih (by rw [size_pairUp, hhalf]) hinside

end Levels

variable {F : Type} [FiniteField F]

theorem Root.verify_eq_true_iff {root : Root} {opening : Opening F} {width depth : ℕ} :
    root.verify opening width depth = true ↔
      opening.path.length = depth ∧ opening.values.size = width ∧ opening.index < 2 ^ depth ∧
        climb (hashElements opening.values) opening.index opening.path = root.digest := by
  simp only [Root.verify, Nat.one_shiftLeft, Bool.and_eq_true, decide_eq_true_eq, and_assoc]

namespace Tree

/-- The levels are those above the digests of `2 ^ depth` leaves of one width. -/
structure WellFormed (tree : Tree F) (width : ℕ) : Prop where
  size : tree.leaves.size = 2 ^ tree.depth
  width : ∀ leaf ∈ tree.leaves, leaf.size = width
  built : buildLevels tree.depth (tree.leaves.map hashElements) = (tree.levels, tree.root.digest)

/-- The tree over given leaves. -/
def ofLeaves (depth : ℕ) (leaves : Array (Array F)) : Tree F :=
  ofDigests depth leaves (leaves.map hashElements)

omit [FiniteField F] in
theorem size_getD_zero {lines : Array (Array F)} {width : ℕ} (nonempty : 0 < lines.size)
    (rectangular : ∀ line ∈ lines, line.size = width) : (lines.getD 0 #[]).size = width := by
  rw [Array.getD_eq_getD_getElem?, Array.getElem?_eq_getElem nonempty, Option.getD_some]
  exact rectangular _ (Array.getElem_mem _)

omit [FiniteField F] in
theorem findIdx?_size_ne {lines : Array (Array F)} {width : ℕ}
    (rectangular : ∀ line ∈ lines, line.size = width) :
    lines.findIdx? (fun line => decide (line.size ≠ width)) = none := by
  rw [Array.findIdx?_eq_none_iff]
  intro line hmem
  simpa using rectangular line hmem

/-- Leaves are committed if there is a power of two of them and they have one
positive width. -/
theorem ofLeaves?_eq_ok {leaves : Array (Array F)} {depth width : ℕ}
    (size : leaves.size = 2 ^ depth) (positive : 0 < width)
    (rectangular : ∀ leaf ∈ leaves, leaf.size = width) :
    ofLeaves? leaves = .ok (ofLeaves depth leaves) := by
  have hfirst : (leaves.getD 0 #[]).size = width :=
    size_getD_zero (by rw [size]; positivity) rectangular
  have hdepth : leafDepth? leaves = .ok depth := by
    simp only [leafDepth?, size, exactLog2_two_pow, hfirst, if_neg positive.ne',
      findIdx?_size_ne rectangular]
  rw [ofLeaves?, hdepth]
  rfl

/-- Leaves are refused if their number is not a power of two, whatever their widths. -/
theorem ofLeaves?_of_forall_ne {leaves : Array (Array F)}
    (irregular : ∀ depth, leaves.size ≠ 2 ^ depth) :
    ofLeaves? leaves = .error (.leafCountNotPowerOfTwo leaves.size) := by
  rw [ofLeaves?, leafDepth?, exactLog2_eq_none_iff.mpr irregular]
  rfl

/-- Elements are committed like leaves of one value. -/
theorem ofVector?_eq_ofLeaves? (values : Array F) :
    ofVector? values = ofLeaves? (values.map fun value => #[value]) := by
  have hdigests : values.map hashElement = (values.map fun value => #[value]).map hashElements := by
    rw [Array.map_map]
    refine Array.map_congr_left fun value _ => ?_
    simp [hashElement, hashElements, elementBytes]
  rw [ofVector?, ofLeaves?, hdigests]

theorem wellFormed_ofLeaves {leaves : Array (Array F)} {depth width : ℕ}
    (size : leaves.size = 2 ^ depth) (rectangular : ∀ leaf ∈ leaves, leaf.size = width) :
    (ofLeaves depth leaves).WellFormed width :=
  ⟨size, rectangular, rfl⟩

/-- The opening of a leaf. -/
def opening (tree : Tree F) (index : ℕ) : Opening F :=
  ⟨index, tree.leaves.getD index #[], siblingPath tree.levels index⟩

omit [FiniteField F] in
theorem open?_eq_ok {tree : Tree F} {index : ℕ} (inside : index < tree.leaves.size) :
    tree.open? index = .ok (tree.opening index) := by
  simp [open?, leaf?, opening, inside, Array.getD_eq_getD_getElem?]

omit [FiniteField F] in
theorem open?_eq_ok_iff {tree : Tree F} {index : ℕ} {opening : Opening F} :
    tree.open? index = .ok opening ↔
      index < tree.leaves.size ∧ opening = tree.opening index := by
  by_cases inside : index < tree.leaves.size
  · simp [open?_eq_ok inside, inside, eq_comm]
  · simp [open?, leaf?, inside]

omit [FiniteField F] in
theorem openAll?_eq_ok {tree : Tree F} {indices : List ℕ}
    (inside : ∀ index ∈ indices, index < tree.leaves.size) :
    tree.openAll? indices = .ok (indices.map tree.opening) :=
  mapM_eq_ok fun index hmem => open?_eq_ok (inside index hmem)

theorem WellFormed.length_path {tree : Tree F} {width : ℕ} (wf : tree.WellFormed width)
    (index : ℕ) : (tree.opening index).path.length = tree.depth := by
  have hlevels : tree.levels = (buildLevels tree.depth (tree.leaves.map hashElements)).1 := by
    rw [wf.built]
  rw [opening, length_siblingPath, hlevels, length_buildLevels]

theorem WellFormed.size_values {tree : Tree F} {width : ℕ} (wf : tree.WellFormed width)
    {index : ℕ} (inside : index < 2 ^ tree.depth) : (tree.opening index).values.size = width := by
  have hsize : index < tree.leaves.size := by rwa [wf.size]
  rw [opening, Array.getD_eq_getD_getElem?, Array.getElem?_eq_getElem hsize, Option.getD_some]
  exact wf.width _ (Array.getElem_mem _)

/-- An opening of a well-formed tree is accepted under its root for the width and the
depth of the tree, and for no others. -/
theorem WellFormed.verify_opening_iff {tree : Tree F} {width : ℕ} (wf : tree.WellFormed width)
    {index : ℕ} (inside : index < 2 ^ tree.depth) {otherWidth otherDepth : ℕ} :
    tree.root.verify (tree.opening index) otherWidth otherDepth = true ↔
      otherWidth = width ∧ otherDepth = tree.depth := by
  have hlevels : tree.levels = (buildLevels tree.depth (tree.leaves.map hashElements)).1 := by
    rw [wf.built]
  have hroot : tree.root.digest = (buildLevels tree.depth (tree.leaves.map hashElements)).2 := by
    rw [wf.built]
  have hsize : index < tree.leaves.size := by rwa [wf.size]
  have hdigest : hashElements (tree.leaves.getD index #[]) =
      (tree.leaves.map hashElements).getD index default := by
    simp [Array.getD_eq_getD_getElem?, hsize]
  have hclimb : climb (hashElements (tree.opening index).values) (tree.opening index).index
      (tree.opening index).path = tree.root.digest := by
    rw [opening, hdigest, hlevels, hroot]
    exact climb_siblingPath (by rw [Array.size_map, wf.size]) inside
  rw [Root.verify_eq_true_iff, wf.length_path, wf.size_values inside]
  constructor
  · rintro ⟨hdepth, hwidth, -, -⟩
    exact ⟨hwidth.symm, hdepth.symm⟩
  · rintro ⟨rfl, rfl⟩
    exact ⟨rfl, rfl, inside, hclimb⟩

/-- Every opening of a well-formed tree is accepted under its root. -/
theorem WellFormed.verify_opening {tree : Tree F} {width : ℕ} (wf : tree.WellFormed width)
    {index : ℕ} (inside : index < 2 ^ tree.depth) :
    tree.root.verify (tree.opening index) width tree.depth = true :=
  (wf.verify_opening_iff inside).mpr ⟨rfl, rfl⟩

end Tree

namespace Batch

/-- The openings of given leaves. -/
def ofLeaves (tree : Tree F) (leaves : List ℕ) : Batch F where
  root := tree.root
  leafCount := tree.leafCount
  leafWidth := tree.leafWidth
  queries := leaves
  openings := leaves.map tree.opening

omit [FiniteField F] in
theorem ofTree?_eq_ok {tree : Tree F} {leaves : List ℕ}
    (inside : ∀ leaf ∈ leaves, leaf < tree.leaves.size) :
    ofTree? tree leaves = .ok (ofLeaves tree leaves) := by
  rw [ofTree?, Tree.openAll?_eq_ok inside]
  rfl

omit [FiniteField F] in
theorem forall_mem_zip_opening (tree : Tree F) (leaves : List ℕ) (accepts : Opening F → Prop) :
    (∀ pair ∈ leaves.zip (leaves.map tree.opening), pair.2.index = pair.1 ∧ accepts pair.2) ↔
      ∀ leaf ∈ leaves, accepts (tree.opening leaf) := by
  rw [← List.map_prod_left_eq_zip, List.forall_mem_map]
  exact forall₂_congr fun leaf _ => and_iff_right rfl

/-- A batch is accepted under the root of its tree only. The width and the depth have
to be those of the tree, unless there is no opening to look at. -/
theorem verifyAgainst_ofLeaves_iff {tree : Tree F} {width : ℕ} (wf : tree.WellFormed width)
    {leaves : List ℕ} (inside : ∀ leaf ∈ leaves, leaf < 2 ^ tree.depth) {root : Root}
    {otherWidth otherDepth : ℕ} :
    (ofLeaves tree leaves).verifyAgainst root otherWidth otherDepth = true ↔
      root = tree.root ∧ (leaves = [] ∨ (otherWidth = width ∧ otherDepth = tree.depth)) := by
  have hroot : (ofLeaves tree leaves).root = root ↔ root = tree.root := eq_comm
  have hcount : (ofLeaves tree leaves).queries.length = (ofLeaves tree leaves).openings.length :=
    (List.length_map _).symm
  simp only [verifyAgainst, Bool.and_eq_true, decide_eq_true_eq, List.all_eq_true, hcount, hroot,
    and_true]
  refine and_congr_right fun hsame => ?_
  subst hsame
  refine (forall_mem_zip_opening tree leaves fun opening =>
    tree.root.verify opening otherWidth otherDepth = true).trans ?_
  cases leaves with
  | nil => simp
  | cons first rest =>
      constructor
      · intro haccepted
        exact .inr ((wf.verify_opening_iff (inside first List.mem_cons_self)).mp
          (haccepted first List.mem_cons_self))
      · rintro (hnil | hshape) leaf hmem
        · cases hnil
        · exact (wf.verify_opening_iff (inside leaf hmem)).mpr hshape

/-- A batch is accepted under the root and the shape of its tree. -/
theorem verifyAgainst_ofLeaves {tree : Tree F} {width : ℕ} (wf : tree.WellFormed width)
    {leaves : List ℕ} (inside : ∀ leaf ∈ leaves, leaf < 2 ^ tree.depth) :
    (ofLeaves tree leaves).verifyAgainst tree.root width tree.depth = true :=
  (verifyAgainst_ofLeaves_iff wf inside).mpr ⟨rfl, .inr ⟨rfl, rfl⟩⟩

/-- A batch is consistent with the root and the shape that it states. -/
theorem verify_ofLeaves {tree : Tree F} {width : ℕ} (wf : tree.WellFormed width)
    {leaves : List ℕ} (inside : ∀ leaf ∈ leaves, leaf < 2 ^ tree.depth) :
    (ofLeaves tree leaves).verify = true := by
  have hwidth : tree.leafWidth = width :=
    Tree.size_getD_zero (by rw [wf.size]; positivity) wf.width
  have hcount : exactLog2 (ofLeaves tree leaves).leafCount = some tree.depth :=
    exactLog2_eq_some_iff.mpr wf.size
  have haccepted := verifyAgainst_ofLeaves wf inside
  rw [← hwidth] at haccepted
  rw [verify, hcount]
  exact haccepted

end Batch
end Merkle
end OracleProofs

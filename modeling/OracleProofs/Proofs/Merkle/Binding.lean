/-
# A root binds its leaves

Two ways up from one index that end at the same root agree from the top down:
where the parents agree, so do the bytes that were hashed, and with them both
children. So an accepted opening is determined by its index, unless two of the
strings hashed on the way collide. All leaves together determine all levels, and
a root under which every leaf is accepted is the root of the tree over them.
-/

import Mathlib
import OracleProofs.Proofs.Digest.Collision
import OracleProofs.Proofs.Field.Prime
import OracleProofs.Proofs.Merkle.Tree

namespace OracleProofs
namespace Merkle

section Climbing

/-- The bytes that are hashed above a digest at `index` and its sibling. -/
def parentBytes (current : Digest) (index : ℕ) (sibling : Digest) : List UInt8 :=
  if index % 2 = 0 then pairBytes current sibling else pairBytes sibling current

/-- The strings that are hashed while climbing, in their order. -/
def climbStrings : (current : Digest) → (index : ℕ) → (path : List Digest) → List (List UInt8)
  | _, _, [] => []
  | current, index, sibling :: path =>
      let bytes := parentBytes current index sibling
      bytes :: climbStrings (Sha256.hash bytes) (index / 2) path

theorem climb_cons (current : Digest) (index : ℕ) (sibling : Digest) (path : List Digest) :
    climb current index (sibling :: path) =
      climb (Sha256.hash (parentBytes current index sibling)) (index / 2) path := by
  rw [climb, parentBytes, apply_ite Sha256.hash]
  rfl

theorem parentBytes_inj {first second firstSibling secondSibling : Digest} {index : ℕ}
    (equal : parentBytes first index firstSibling = parentBytes second index secondSibling) :
    first = second ∧ firstSibling = secondSibling := by
  by_cases heven : index % 2 = 0
  · rw [parentBytes, parentBytes, if_pos heven, if_pos heven] at equal
    exact pairBytes_inj equal
  · rw [parentBytes, parentBytes, if_neg heven, if_neg heven] at equal
    exact (pairBytes_inj equal).symm

/-- Two ways of one length that end at the same digest are the same way, or two of
the strings hashed on them collide. -/
theorem climb_inj_or_collides {first second : Digest} {index : ℕ}
    {firstPath secondPath : List Digest} (length : firstPath.length = secondPath.length)
    (equal : climb first index firstPath = climb second index secondPath) :
    (first = second ∧ firstPath = secondPath) ∨
      Collides (climbStrings first index firstPath ++ climbStrings second index secondPath) := by
  induction firstPath generalizing first second index secondPath with
  | nil =>
      have hnil := List.length_eq_zero_iff.mp length.symm
      rw [hnil] at equal
      exact .inl ⟨equal, hnil.symm⟩
  | cons firstSibling firstPath ih =>
      cases secondPath with
      | nil => cases length
      | cons secondSibling secondPath =>
          rw [climb_cons, climb_cons] at equal
          rw [climbStrings, climbStrings]
          -- above the two siblings the ways agree, unless they collide there
          obtain ⟨hparent, hpath⟩ | hcollides := ih (Nat.succ.inj length) equal
          · obtain hbytes | hcollides := eq_or_collides hparent
            · obtain ⟨hcurrent, hsibling⟩ := parentBytes_inj hbytes
              exact .inl ⟨hcurrent, by rw [hsibling, hpath]⟩
            · exact .inr hcollides
          · exact .inr hcollides.cons_append_cons

/-- Two ways from neighbouring digests to one root show each digest to the other, or
two of the strings hashed on them collide. -/
theorem neighbours_or_collides {left right leftSibling rightSibling : Digest} {place : ℕ}
    {leftPath rightPath : List Digest} (length : leftPath.length = rightPath.length)
    (equal : climb left (2 * place) (leftSibling :: leftPath) =
      climb right (2 * place + 1) (rightSibling :: rightPath)) :
    (leftSibling = right ∧ rightSibling = left) ∨
      Collides (climbStrings left (2 * place) (leftSibling :: leftPath) ++
        climbStrings right (2 * place + 1) (rightSibling :: rightPath)) := by
  have hleft : parentBytes left (2 * place) leftSibling = pairBytes left leftSibling :=
    if_pos (by omega)
  have hright : parentBytes right (2 * place + 1) rightSibling = pairBytes rightSibling right :=
    if_neg (by omega)
  have hhalf : (2 * place + 1) / 2 = 2 * place / 2 := by omega
  rw [climb_cons, climb_cons, hleft, hright, hhalf] at equal
  rw [climbStrings, climbStrings, hleft, hright, hhalf]
  obtain ⟨hparent, -⟩ | hcollides := climb_inj_or_collides length equal
  · obtain hbytes | hcollides := eq_or_collides hparent
    · obtain ⟨hfirst, hsecond⟩ := pairBytes_inj hbytes
      exact .inl ⟨hsecond, hfirst.symm⟩
    · exact .inr hcollides
  · exact .inr hcollides.cons_append_cons

/-- The strings that are hashed on the ways of the digests of a level. -/
def levelStrings (depth : ℕ) (level : Array Digest) (pathOf : ℕ → List Digest) :
    List (List UInt8) :=
  (List.range (2 ^ depth)).flatMap fun index =>
    climbStrings (level.getD index default) index (pathOf index)

theorem climbStrings_subset_levelStrings {depth index : ℕ} (level : Array Digest)
    (pathOf : ℕ → List Digest) (inside : index < 2 ^ depth) :
    climbStrings (level.getD index default) index (pathOf index) ⊆
      levelStrings depth level pathOf :=
  fun _ hmem => List.mem_flatMap.mpr ⟨index, List.mem_range.mpr inside, hmem⟩

theorem getD_pairUp_eq_hash {depth place : ℕ} {level : Array Digest}
    (size : level.size = 2 ^ (depth + 1)) (inside : place < 2 ^ depth) :
    (pairUp level).getD place default =
      Sha256.hash (parentBytes (level.getD (2 * place) default) (2 * place)
        (level.getD (2 * place + 1) default)) := by
  have heven : 2 * place % 2 = 0 := by omega
  have hplace : place < level.size / 2 := by omega
  rw [getD_pairUp_of_lt level hplace, parentBytes, if_pos heven, hashPair]

/-- The way of a left child shows the right child and goes on from their parent, or
two of the strings hashed on the ways of a level collide. -/
theorem parents_or_collides {depth : ℕ} {level : Array Digest} {root : Digest}
    {pathOf : ℕ → List Digest} (size : level.size = 2 ^ (depth + 1))
    (length : ∀ index < 2 ^ (depth + 1), (pathOf index).length = depth + 1)
    (climbs : ∀ index < 2 ^ (depth + 1),
      climb (level.getD index default) index (pathOf index) = root) :
    (∀ place < 2 ^ depth,
      climb ((pairUp level).getD place default) place (pathOf (2 * place)).tail = root ∧
        climbStrings ((pairUp level).getD place default) place (pathOf (2 * place)).tail ⊆
          climbStrings (level.getD (2 * place) default) (2 * place) (pathOf (2 * place))) ∨
      Collides (levelStrings (depth + 1) level pathOf) := by
  by_cases hcollides : Collides (levelStrings (depth + 1) level pathOf)
  · exact .inr hcollides
  refine .inl fun place inside => ?_
  have hleft : 2 * place < 2 ^ (depth + 1) := by rw [pow_succ]; omega
  have hright : 2 * place + 1 < 2 ^ (depth + 1) := by rw [pow_succ]; omega
  have hhalf : 2 * place / 2 = place := by omega
  have hclimb := climbs _ hleft
  have hclimb' := climbs _ hright
  have hstrings := climbStrings_subset_levelStrings level pathOf hleft
  have hstrings' := climbStrings_subset_levelStrings level pathOf hright
  obtain ⟨sibling, path, hpath⟩ := List.exists_cons_of_length_eq_add_one (length _ hleft)
  obtain ⟨sibling', path', hpath'⟩ := List.exists_cons_of_length_eq_add_one (length _ hright)
  have hlength : path.length = path'.length := by
    have hpathLength := length _ hleft
    have hpathLength' := length _ hright
    rw [hpath, List.length_cons] at hpathLength
    rw [hpath', List.length_cons] at hpathLength'
    omega
  rw [hpath] at hclimb hstrings ⊢
  rw [hpath'] at hclimb' hstrings'
  obtain ⟨hsibling, -⟩ | hfound := neighbours_or_collides hlength (hclimb.trans hclimb'.symm)
  · rw [climb_cons, hhalf, hsibling, ← getD_pairUp_eq_hash size inside] at hclimb
    rw [List.tail_cons, climbStrings, hhalf, hsibling, ← getD_pairUp_eq_hash size inside]
    exact ⟨hclimb, List.subset_cons_self _ _⟩
  · exact absurd (hfound.mono (List.append_subset.mpr ⟨hstrings, hstrings'⟩)) hcollides

/-- If all digests of a level climb to one root, it is the root that is built above
them, or two of the strings hashed on the ways collide. -/
theorem buildLevels_eq_or_collides {depth : ℕ} {level : Array Digest} {root : Digest}
    {pathOf : ℕ → List Digest} (size : level.size = 2 ^ depth)
    (length : ∀ index < 2 ^ depth, (pathOf index).length = depth)
    (climbs : ∀ index < 2 ^ depth,
      climb (level.getD index default) index (pathOf index) = root) :
    (buildLevels depth level).2 = root ∨ Collides (levelStrings depth level pathOf) := by
  induction depth generalizing level pathOf with
  | zero =>
      have hpath := List.length_eq_zero_iff.mp (length 0 one_pos)
      have hclimb := climbs 0 one_pos
      rw [hpath] at hclimb
      exact .inl hclimb
  | succ depth ih =>
      obtain hparents | hcollides := parents_or_collides size length climbs
      · have hleft {place : ℕ} (inside : place < 2 ^ depth) : 2 * place < 2 ^ (depth + 1) := by
          rw [pow_succ]
          omega
        have hlength (place : ℕ) (inside : place < 2 ^ depth) :
            (pathOf (2 * place)).tail.length = depth := by
          rw [List.length_tail, length _ (hleft inside), Nat.add_sub_cancel]
        have hsize : (pairUp level).size = 2 ^ depth := by
          rw [size_pairUp, size, pow_succ, Nat.mul_div_cancel _ two_pos]
        refine (ih hsize hlength fun place inside => (hparents place inside).1).imp_right ?_
        refine fun hcollides => hcollides.mono fun string hmem => ?_
        obtain ⟨place, hplace, hstring⟩ := List.mem_flatMap.mp hmem
        have hinside := List.mem_range.mp hplace
        exact climbStrings_subset_levelStrings level pathOf (hleft hinside)
          ((hparents place hinside).2 hstring)
      · exact .inr hcollides

end Climbing

variable {F : Type} [FiniteField F]

/-- The strings that are hashed while an opening is checked. -/
def Opening.hashedStrings (opening : Opening F) : List (List UInt8) :=
  elementBytes opening.values ::
    climbStrings (hashElements opening.values) opening.index opening.path

/-- Two openings that are accepted at one index are equal or collide. -/
theorem eq_or_collides_of_verify [FaithfulEncoding F] {root : Root} {width depth : ℕ}
    {first second : Opening F} (sameIndex : first.index = second.index)
    (hfirst : root.verify first width depth = true)
    (hsecond : root.verify second width depth = true) :
    first = second ∨ Collides (first.hashedStrings ++ second.hashedStrings) := by
  obtain ⟨hlength, hsize, -, hclimb⟩ := Root.verify_eq_true_iff.mp hfirst
  obtain ⟨hlength', hsize', -, hclimb'⟩ := Root.verify_eq_true_iff.mp hsecond
  rw [← hclimb', ← sameIndex] at hclimb
  rw [Opening.hashedStrings, Opening.hashedStrings, ← sameIndex]
  obtain ⟨hdigest, hpath⟩ | hcollides :=
    climb_inj_or_collides (hlength.trans hlength'.symm) hclimb
  · obtain hbytes | hcollides := eq_or_collides hdigest
    · have hvalues := elementBytes_inj (hsize.trans hsize'.symm) hbytes
      cases first
      cases second
      cases sameIndex
      cases hvalues
      cases hpath
      exact .inl rfl
    · exact .inr hcollides
  · exact .inr hcollides.cons_append_cons

/-- If every leaf has an opening that is accepted under a root, it is the root of
the tree over the opened leaves, or two of the strings hashed for them collide. -/
theorem root_ofLeaves_or_collides {root : Root} {width depth : ℕ} {openings : List (Opening F)}
    (indices : openings.map Opening.index = List.range (2 ^ depth))
    (verified : ∀ opening ∈ openings, root.verify opening width depth = true) :
    (Tree.ofLeaves depth (openings.map Opening.values).toArray).root = root ∨
      Collides (openings.flatMap Opening.hashedStrings) := by
  have hcount : openings.length = 2 ^ depth := by
    simpa using congrArg List.length indices
  let level : Array Digest := (openings.map Opening.values).toArray.map hashElements
  let pathOf (index : ℕ) : List Digest := (openings[index]?.map Opening.path).getD []
  have hopening (index : ℕ) (inside : index < 2 ^ depth) :
      ∃ opening ∈ openings, opening.index = index ∧ pathOf index = opening.path ∧
        level.getD index default = hashElements opening.values := by
    have hinside : index < openings.length := by rwa [hcount]
    refine ⟨openings[index], List.getElem_mem hinside, ?_, ?_, ?_⟩
    · have hindex := congrArg (fun list : List ℕ => list[index]?) indices
      simpa [hinside, inside] using hindex
    · simp [pathOf, hinside]
    · simp [level, Array.getD_eq_getD_getElem?, hinside]
  have hways : levelStrings depth level pathOf ⊆ openings.flatMap Opening.hashedStrings := by
    intro string hmem
    obtain ⟨index, hindex, hstring⟩ := List.mem_flatMap.mp hmem
    obtain ⟨opening, hopening, rfl, hpath, hlevel⟩ := hopening index (List.mem_range.mp hindex)
    rw [hpath, hlevel] at hstring
    exact List.mem_flatMap.mpr ⟨opening, hopening, List.mem_cons_of_mem _ hstring⟩
  have hsize : level.size = 2 ^ depth := by simp [level, hcount]
  have hlength (index : ℕ) (inside : index < 2 ^ depth) : (pathOf index).length = depth := by
    obtain ⟨opening, hmem, -, hpath, -⟩ := hopening index inside
    rw [hpath]
    exact (Root.verify_eq_true_iff.mp (verified opening hmem)).1
  have hclimbs (index : ℕ) (inside : index < 2 ^ depth) :
      climb (level.getD index default) index (pathOf index) = root.digest := by
    obtain ⟨opening, hmem, rfl, hpath, hlevel⟩ := hopening index inside
    rw [hpath, hlevel]
    exact (Root.verify_eq_true_iff.mp (verified opening hmem)).2.2.2
  obtain hroot | hcollides := buildLevels_eq_or_collides hsize hlength hclimbs
  · exact .inl (congrArg Root.mk hroot)
  · exact .inr (hcollides.mono hways)

namespace Tree

/-- The trees that can be made: from a list of leaves, from a list of elements, or
from a matrix. -/
inductive Committed (tree : Tree F) : Prop
  | ofLeaves {leaves : Array (Array F)} (accepted : ofLeaves? leaves = .ok tree)
  | ofVector {values : Array F} (accepted : ofVector? values = .ok tree)
  | ofMatrix {matrix : Array (Array F)} {layout : Layout}
      (accepted : commit? matrix layout = .ok tree)

omit [FiniteField F] in
theorem leafDepth?_eq_ok {leaves : Array (Array F)} {depth : ℕ}
    (accepted : leafDepth? leaves = .ok depth) :
    leaves.size = 2 ^ depth ∧ ∀ leaf ∈ leaves, leaf.size = (leaves.getD 0 #[]).size := by
  rw [leafDepth?] at accepted
  cases hdepth : exactLog2 leaves.size with
  | none =>
      rw [hdepth] at accepted
      cases accepted
  | some found =>
      simp only [hdepth] at accepted
      by_cases hempty : (leaves.getD 0 #[]).size = 0
      · rw [if_pos hempty] at accepted
        cases accepted
      · rw [if_neg hempty] at accepted
        cases hragged : leaves.findIdx? fun leaf => leaf.size ≠ (leaves.getD 0 #[]).size with
        | some row =>
            simp only [hragged] at accepted
            cases accepted
        | none =>
            simp only [hragged] at accepted
            cases accepted
            refine ⟨exactLog2_eq_some_iff.mp hdepth, fun leaf hmem => ?_⟩
            simpa using Array.findIdx?_eq_none_iff.mp hragged leaf hmem

theorem wellFormed_of_ofLeaves? {leaves : Array (Array F)} {tree : Tree F}
    (accepted : ofLeaves? leaves = .ok tree) : tree.WellFormed tree.leafWidth := by
  rw [ofLeaves?] at accepted
  obtain ⟨depth, hdepth, rfl⟩ := map_eq_ok_iff.mp accepted
  obtain ⟨hsize, hwidth⟩ := leafDepth?_eq_ok hdepth
  exact ⟨hsize, hwidth, rfl⟩

/-- However a tree was made, its levels are those above its leaves. -/
theorem Committed.wellFormed {tree : Tree F} (committed : tree.Committed) :
    tree.WellFormed tree.leafWidth := by
  cases committed with
  | ofLeaves accepted => exact wellFormed_of_ofLeaves? accepted
  | ofVector accepted =>
      rw [ofVector?_eq_ofLeaves?] at accepted
      exact wellFormed_of_ofLeaves? accepted
  | @ofMatrix matrix layout accepted =>
      simp only [commit?] at accepted
      by_cases hempty : (matrix.getD 0 #[]).size = 0
      · rw [if_pos hempty] at accepted
        cases accepted
      · rw [if_neg hempty] at accepted
        cases hragged : matrix.findIdx? fun row => row.size ≠ (matrix.getD 0 #[]).size with
        | some row =>
            simp only [hragged] at accepted
            cases accepted
        | none =>
            simp only [hragged] at accepted
            cases layout with
            | rows => exact wellFormed_of_ofLeaves? accepted
            | columns => exact wellFormed_of_ofLeaves? accepted

end Tree

/-- Openings are bound by the root: two that are accepted at one index under one
root, width and depth are the same opening, and one that is accepted under the
root of a tree is the opening of that tree. Otherwise two different strings hashed
for them have the same digest. -/
theorem opening_unique_or_collides [FaithfulEncoding F] :
    (∀ (root : Root) (width depth : ℕ) (first second : Opening F),
      first.index = second.index →
      root.verify first width depth = true → root.verify second width depth = true →
        first = second ∨ Collides (first.hashedStrings ++ second.hashedStrings)) ∧
    ∀ (tree : Tree F) (opening : Opening F), tree.Committed →
      tree.root.verify opening tree.leafWidth tree.depth = true →
        ∃ honest, tree.open? opening.index = .ok honest ∧
          (opening = honest ∨ Collides (opening.hashedStrings ++ honest.hashedStrings)) := by
  refine ⟨fun root width depth first second => eq_or_collides_of_verify, ?_⟩
  intro tree opening committed verified
  have hwf := committed.wellFormed
  obtain ⟨-, -, hinside, -⟩ := Root.verify_eq_true_iff.mp verified
  refine ⟨tree.opening opening.index, Tree.open?_eq_ok (by rwa [hwf.size]), ?_⟩
  exact eq_or_collides_of_verify rfl verified (hwf.verify_opening hinside)

/-- The second of two leaves, shown beside the digest of the first. -/
theorem second_of_two_leaves_unique_or_collides :
    let tree : Tree BabyBear := .ofLeaves 1 #[#[0], #[1]]
    let opening : Opening BabyBear := ⟨1, #[1], [hashElements #[(0 : BabyBear)]]⟩
    tree.Committed ∧ tree.root.verify opening tree.leafWidth tree.depth = true ∧
      (opening = tree.opening 1 ∨
        Collides (opening.hashedStrings ++ (tree.opening 1).hashedStrings)) ∧
      ∃ honest, tree.open? 1 = .ok honest ∧
        (opening = honest ∨ Collides (opening.hashedStrings ++ honest.hashedStrings)) := by
  intro tree opening
  have hwidth : ∀ leaf ∈ (#[#[0], #[1]] : Array (Array BabyBear)), leaf.size = 1 := by simp
  have hcommitted : tree.Committed := .ofLeaves (Tree.ofLeaves?_eq_ok rfl one_pos hwidth)
  have hverified : tree.root.verify opening tree.leafWidth tree.depth = true :=
    Root.verify_eq_true_iff.mpr ⟨rfl, rfl, Nat.one_lt_two, by
      simp [tree, opening, climb, Tree.ofLeaves, Tree.ofDigests, buildLevels, pairUp]⟩
  have hhonest := hcommitted.wellFormed.verify_opening Nat.one_lt_two
  exact ⟨hcommitted, hverified,
    opening_unique_or_collides.1 tree.root tree.leafWidth tree.depth opening (tree.opening 1) rfl
      hverified hhonest,
    opening_unique_or_collides.2 tree opening hcommitted hverified⟩

end Merkle
end OracleProofs

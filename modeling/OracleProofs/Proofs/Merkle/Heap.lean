/-
# Digests of blocks and their place in a heap

The digest of a tree above a block of neighbouring leaves depends on these leaves only:
it is the hash of the block by halves. All digests can stand in one array, the root
first and every level behind the one above it. The levels are then filled in place from
the leaves up, and an opening is found by walking from its leaf to the root; both agree
with the levels of the tree.
-/

import Mathlib
import OracleProofs.Proofs.Field.Prime
import OracleProofs.Proofs.Merkle.Layout

namespace OracleProofs
namespace Merkle

section Levels

theorem size_iterate_pairUp (height : ℕ) (level : Array Digest) :
    (pairUp^[height] level).size = level.size / 2 ^ height := by
  induction height with
  | zero => simp
  | succ height ih =>
      rw [Function.iterate_succ_apply', size_pairUp, ih, Nat.div_div_eq_div_mul, pow_succ]

/-- Each level is made from the one below by pairing, and the last one is the root. -/
theorem buildLevels_eq (depth : ℕ) (level : Array Digest) :
    buildLevels depth level = ((List.range depth).map fun height => pairUp^[height] level,
      (pairUp^[depth] level).getD 0 default) := by
  induction depth generalizing level with
  | zero => rfl
  | succ depth ih =>
      rw [buildLevels, ih, List.range_succ_eq_map, List.map_cons, List.map_map]
      rfl

/-- Below the root every place of a level has its neighbour in the level. -/
theorem sibling_lt {height place : ℕ} (positive : 0 < height) (inside : place < 2 ^ height) :
    sibling place < 2 ^ height := by
  obtain ⟨below, rfl⟩ := Nat.exists_eq_add_one.mpr positive
  rw [pow_succ] at inside ⊢
  rw [sibling]
  split <;> omega

theorem getElem?_siblingPath (levels : List (Array Digest)) (index height : ℕ) :
    (siblingPath levels index)[height]? =
      levels[height]?.map fun level => level.getD (sibling (index / 2 ^ height)) default := by
  induction levels generalizing index height with
  | nil => rfl
  | cons level above ih =>
      cases height with
      | zero => simp [siblingPath]
      | succ height =>
          rw [siblingPath, List.getElem?_cons_succ, List.getElem?_cons_succ, ih,
            Nat.div_div_eq_div_mul, ← pow_succ']

end Levels

section Heap

/-- Computes the digest of one parent in place. Its children stand in the next level. -/
def fillNode (level : ℕ) (nodes : Array Digest) (place : ℕ) : Array Digest :=
  let child := 2 ^ (level + 1) - 1 + 2 * place
  nodes.setIfInBounds (2 ^ level - 1 + place)
    (hashPair (nodes.getD child default) (nodes.getD (child + 1) default))

/-- Computes the digests of one level in place. -/
def fillLevel (level : ℕ) (nodes : Array Digest) : Array Digest :=
  (List.range (2 ^ level)).foldl (fillNode level) nodes

/-- Computes the levels above a level of `2 ^ level` digests, the root last. -/
def fillLevels : (level : ℕ) → (nodes : Array Digest) → Array Digest
  | 0, nodes => nodes
  | level + 1, nodes => fillLevels level (fillLevel level nodes)

/-- The heap over `2 ^ depth` digests, which stand at its end. -/
def heapOf (depth : ℕ) (digests : Array Digest) : Array Digest :=
  fillLevels depth (Array.replicate (2 ^ depth - 1) default ++ digests)

/-- The digests beside the way from a place in a heap to the root. Left children stand
at odd places. -/
def heapPath (nodes : Array Digest) (node : ℕ) : List Digest :=
  if node = 0 then []
  else
    nodes.getD (if node % 2 = 1 then node + 1 else node - 1) default ::
      heapPath nodes ((node - 1) / 2)
termination_by node
decreasing_by omega

theorem size_fillNode (level : ℕ) (nodes : Array Digest) (place : ℕ) :
    (fillNode level nodes place).size = nodes.size :=
  Array.size_setIfInBounds

theorem size_foldl_fillNode (level : ℕ) (nodes : Array Digest) (places : List ℕ) :
    (places.foldl (fillNode level) nodes).size = nodes.size := by
  induction places generalizing nodes with
  | nil => rfl
  | cons place rest ih => rw [List.foldl_cons, ih, size_fillNode]

theorem getD_fillNode {level place : ℕ} {nodes : Array Digest}
    (room : 2 ^ level - 1 + place < nodes.size) (node : ℕ) :
    (fillNode level nodes place).getD node default =
      if node = 2 ^ level - 1 + place then
        hashPair (nodes.getD (2 * node + 1) default) (nodes.getD (2 * node + 2) default)
      else nodes.getD node default := by
  have hpositive := Nat.two_pow_pos level
  have hchild : 2 ^ (level + 1) - 1 + 2 * place = 2 * (2 ^ level - 1 + place) + 1 := by
    rw [pow_succ]
    omega
  rw [fillNode, hchild, Array.getD_eq_getD_getElem?, Array.getElem?_setIfInBounds]
  by_cases hnode : 2 ^ level - 1 + place = node
  · subst hnode
    rw [if_pos rfl, if_pos rfl, if_pos room, Option.getD_some]
  · rw [if_neg hnode, if_neg fun h => hnode h.symm, ← Array.getD_eq_getD_getElem?]

/-- While a level is being filled, the children of its parents are not touched. -/
private theorem getD_foldl_fillNode {level count : ℕ} {nodes : Array Digest}
    (room : 2 ^ (level + 1) - 1 ≤ nodes.size) (le : count ≤ 2 ^ level) (node : ℕ) :
    ((List.range count).foldl (fillNode level) nodes).getD node default =
      if 2 ^ level - 1 ≤ node ∧ node < 2 ^ level - 1 + count then
        hashPair (nodes.getD (2 * node + 1) default) (nodes.getD (2 * node + 2) default)
      else nodes.getD node default := by
  have hpositive := Nat.two_pow_pos level
  have hdouble : 2 ^ (level + 1) = 2 * 2 ^ level := by rw [pow_succ, mul_comm]
  induction count generalizing node with
  | zero => rw [List.range_zero, List.foldl_nil, if_neg (by omega)]
  | succ count ih =>
      have hroom : 2 ^ level - 1 + count <
          ((List.range count).foldl (fillNode level) nodes).size := by
        rw [size_foldl_fillNode]
        omega
      have hold := ih (by omega)
      rw [List.range_succ, List.foldl_append, List.foldl_cons, List.foldl_nil,
        getD_fillNode hroom]
      by_cases hnode : node = 2 ^ level - 1 + count
      · rw [if_pos hnode, if_pos (by omega), hold, hold, if_neg (by omega), if_neg (by omega)]
      · rw [if_neg hnode, hold]
        exact if_congr (by omega) rfl rfl

/-- The levels from `level` down to the leaves hold the digests of a tree. -/
structure FilledFrom (depth : ℕ) (digests : Array Digest) (level : ℕ) (nodes : Array Digest) :
    Prop where
  size : nodes.size = 2 ^ (depth + 1) - 1
  digest : ∀ upper, level ≤ upper → upper ≤ depth → ∀ place < 2 ^ upper,
    nodes.getD (2 ^ upper - 1 + place) default =
      (pairUp^[depth - upper] digests).getD place default

variable {depth : ℕ} {digests : Array Digest}

theorem filledFrom_leaves (size : digests.size = 2 ^ depth) :
    FilledFrom depth digests depth (Array.replicate (2 ^ depth - 1) default ++ digests) where
  size := by
    have hpositive := Nat.two_pow_pos depth
    rw [Array.size_append, Array.size_replicate, size, pow_succ]
    omega
  digest upper hlower hupper place _ := by
    obtain rfl := hupper.antisymm hlower
    rw [Nat.sub_self, Function.iterate_zero_apply, Array.getD_eq_getD_getElem?,
      Array.getElem?_append_right (by rw [Array.size_replicate]; omega), Array.size_replicate,
      Nat.add_sub_cancel_left, ← Array.getD_eq_getD_getElem?]

/-- Filling a level makes it one of those that hold digests. -/
theorem FilledFrom.fillLevel {level : ℕ} {nodes : Array Digest} (size : digests.size = 2 ^ depth)
    (le : level < depth) (filled : FilledFrom depth digests (level + 1) nodes) :
    FilledFrom depth digests level (fillLevel level nodes) where
  size := by rw [Merkle.fillLevel, size_foldl_fillNode, filled.size]
  digest upper hlower hupper place inside := by
    have hpositive := Nat.two_pow_pos upper
    have hroom : 2 ^ (level + 1) - 1 ≤ nodes.size := by
      have hle := Nat.pow_le_pow_right two_pos (show level + 1 ≤ depth + 1 by omega)
      rw [filled.size]
      omega
    rw [Merkle.fillLevel, getD_foldl_fillNode hroom le_rfl]
    obtain rfl | hbelow := Nat.eq_or_lt_of_le hlower
    · -- the parents are those that the next level is paired up to
      have hheight : depth - level = depth - (level + 1) + 1 := by omega
      have hhalf : place < (pairUp^[depth - (level + 1)] digests).size / 2 := by
        rw [size_iterate_pairUp, size, Nat.pow_div (Nat.sub_le _ _) two_pos,
          show depth - (depth - (level + 1)) = level + 1 by omega, pow_succ,
          Nat.mul_div_cancel _ two_pos]
        exact inside
      have hchild (offset : ℕ) (hoffset : offset < 2) :
          nodes.getD (2 * (2 ^ level - 1 + place) + 1 + offset) default =
            (pairUp^[depth - (level + 1)] digests).getD (2 * place + offset) default := by
        have hplace : 2 * (2 ^ level - 1 + place) + 1 + offset =
            2 ^ (level + 1) - 1 + (2 * place + offset) := by
          rw [pow_succ]
          omega
        rw [hplace]
        exact filled.digest (level + 1) le_rfl le _ (by rw [pow_succ]; omega)
      have hleft := hchild 0 two_pos
      have hright := hchild 1 one_lt_two
      rw [if_pos (by omega), hheight, Function.iterate_succ_apply', getD_pairUp_of_lt _ hhalf]
      exact congrArg₂ hashPair hleft hright
    · have hlarger := Nat.pow_le_pow_right two_pos (show level + 1 ≤ upper from hbelow)
      rw [pow_succ] at hlarger
      rw [if_neg (by omega)]
      exact filled.digest upper hbelow hupper place inside

theorem FilledFrom.fillLevels {level : ℕ} {nodes : Array Digest}
    (size : digests.size = 2 ^ depth) (le : level ≤ depth)
    (filled : FilledFrom depth digests level nodes) :
    FilledFrom depth digests 0 (fillLevels level nodes) := by
  induction level generalizing nodes with
  | zero => exact filled
  | succ level ih => exact ih (Nat.le_of_succ_le le) (filled.fillLevel size le)

/-- The place of every digest is inside the heap. -/
theorem FilledFrom.getElem?_eq {nodes : Array Digest} (filled : FilledFrom depth digests 0 nodes)
    {upper : ℕ} (le : upper ≤ depth) {place : ℕ} (inside : place < 2 ^ upper) :
    nodes[2 ^ upper - 1 + place]? = some ((pairUp^[depth - upper] digests).getD place default) := by
  have hlarger := Nat.pow_le_pow_right two_pos le
  have hroom : 2 ^ upper - 1 + place < nodes.size := by
    rw [filled.size, pow_succ]
    omega
  rw [← filled.digest upper (Nat.zero_le _) le place inside, Array.getD_eq_getD_getElem?,
    Array.getElem?_eq_getElem hroom, Option.getD_some]

theorem filledFrom_heapOf (size : digests.size = 2 ^ depth) :
    FilledFrom depth digests 0 (heapOf depth digests) :=
  (filledFrom_leaves size).fillLevels size le_rfl

/-- Walking up in the heap meets the siblings that stand in the levels. -/
theorem FilledFrom.heapPath_eq {nodes : Array Digest} (filled : FilledFrom depth digests 0 nodes)
    {upper : ℕ} (le : upper ≤ depth) {place : ℕ} (inside : place < 2 ^ upper) :
    heapPath nodes (2 ^ upper - 1 + place) =
      siblingPath (buildLevels upper (pairUp^[depth - upper] digests)).1 place := by
  induction upper generalizing place with
  | zero =>
      have hzero : place = 0 := by simpa using inside
      rw [hzero, heapPath]
      rfl
  | succ upper ih =>
      have hpositive := Nat.two_pow_pos upper
      have hheight : depth - upper = depth - (upper + 1) + 1 := by omega
      have hdouble : 2 ^ (upper + 1) = 2 * 2 ^ upper := by rw [pow_succ, mul_comm]
      have hsibling : (if (2 ^ (upper + 1) - 1 + place) % 2 = 1 then
          2 ^ (upper + 1) - 1 + place + 1 else 2 ^ (upper + 1) - 1 + place - 1) =
            2 ^ (upper + 1) - 1 + sibling place := by
        rw [sibling]
        split <;> split <;> omega
      have hparent : (2 ^ (upper + 1) - 1 + place - 1) / 2 = 2 ^ upper - 1 + place / 2 := by omega
      have hinside : sibling place < 2 ^ (upper + 1) := sibling_lt upper.succ_pos inside
      rw [heapPath, if_neg (by omega), hsibling, hparent,
        filled.digest (upper + 1) (Nat.zero_le _) le _ hinside,
        ih (Nat.le_of_succ_le le) (by omega), hheight, Function.iterate_succ_apply']
      rfl

end Heap

variable {F : Type} [FiniteField F]

section Blocks

/-- The hash of a list of leaves by halves: a single leaf is hashed as it is, and a longer
list through the hashes of its first and its second half. -/
def hashByHalves (leaves : List (Array F)) : Digest :=
  if leaves.length ≤ 1 then hashElements (leaves.headD #[])
  else
    hashPair (hashByHalves (leaves.take (leaves.length / 2)))
      (hashByHalves (leaves.drop (leaves.length / 2)))
termination_by leaves.length
decreasing_by all_goals grind

theorem hashByHalves_singleton (leaf : Array F) : hashByHalves [leaf] = hashElements leaf := by
  rw [hashByHalves, if_pos (show [leaf].length ≤ 1 from le_rfl), List.headD_cons]

omit [FiniteField F] in
/-- The leaves are cut into blocks of `2 ^ height` neighbours, counted from zero. -/
def block (leaves : Array (Array F)) (height place : ℕ) : List (Array F) :=
  (leaves.toList.drop (place * 2 ^ height)).take (2 ^ height)

variable {leaves : Array (Array F)}

omit [FiniteField F] in
theorem block_zero {place : ℕ} (inside : place < leaves.size) :
    block leaves 0 place = [leaves[place]] := by
  rw [block, pow_zero, mul_one, List.drop_eq_getElem_cons (by simpa using inside)]
  rfl

omit [FiniteField F] in
theorem length_block {height place : ℕ} (inside : (place + 1) * 2 ^ height ≤ leaves.size) :
    (block leaves height place).length = 2 ^ height := by
  rw [Nat.succ_mul] at inside
  rw [block, List.length_take, List.length_drop, Array.length_toList]
  omega

omit [FiniteField F] in
theorem take_block (height place : ℕ) :
    (block leaves (height + 1) place).take (2 ^ height) = block leaves height (2 * place) := by
  rw [block, block, List.take_take, pow_succ', ← mul_assoc, mul_comm place 2,
    min_eq_left (Nat.le_mul_of_pos_left _ two_pos)]

omit [FiniteField F] in
theorem drop_block (height place : ℕ) :
    (block leaves (height + 1) place).drop (2 ^ height) =
      block leaves height (2 * place + 1) := by
  have hstart : place * 2 ^ (height + 1) + 2 ^ height = (2 * place + 1) * 2 ^ height := by
    rw [pow_succ]
    ring
  have hrest : 2 ^ (height + 1) - 2 ^ height = 2 ^ height := by
    rw [pow_succ]
    omega
  rw [block, block, List.drop_take, List.drop_drop, hstart, hrest]

/-- The two halves of a block are blocks themselves. -/
theorem hashByHalves_block_succ {height place : ℕ}
    (inside : (place + 1) * 2 ^ (height + 1) ≤ leaves.size) :
    hashByHalves (block leaves (height + 1) place) =
      hashPair (hashByHalves (block leaves height (2 * place)))
        (hashByHalves (block leaves height (2 * place + 1))) := by
  have hlength := length_block inside
  have hpositive := Nat.two_pow_pos height
  have hlong : ¬(block leaves (height + 1) place).length ≤ 1 := by
    rw [hlength, pow_succ]
    omega
  have hhalf : (block leaves (height + 1) place).length / 2 = 2 ^ height := by
    rw [hlength, pow_succ, Nat.mul_div_cancel _ two_pos]
  rw [hashByHalves, if_neg hlong, hhalf, take_block, drop_block]

/-- The digests of a level are the hashes of the blocks below them. -/
theorem getD_iterate_pairUp {height place : ℕ}
    (inside : (place + 1) * 2 ^ height ≤ leaves.size) :
    (pairUp^[height] (leaves.map hashElements)).getD place default =
      hashByHalves (block leaves height place) := by
  induction height generalizing place with
  | zero =>
      have hplace : place < leaves.size := by simpa using inside
      rw [block_zero hplace, hashByHalves_singleton]
      simp [Array.getD_eq_getD_getElem?, hplace]
  | succ height ih =>
      have hparent : place < (pairUp^[height] (leaves.map hashElements)).size / 2 := by
        rw [size_iterate_pairUp, Array.size_map, Nat.div_div_eq_div_mul, ← pow_succ]
        exact (Nat.le_div_iff_mul_le (Nat.two_pow_pos _)).mpr inside
      have hright : (2 * place + 1 + 1) * 2 ^ height ≤ leaves.size := by
        refine le_of_eq_of_le ?_ inside
        rw [pow_succ]
        ring
      have hleft : (2 * place + 1) * 2 ^ height ≤ leaves.size :=
        (Nat.mul_le_mul_right _ (Nat.le_succ _)).trans hright
      rw [Function.iterate_succ_apply', getD_pairUp_of_lt _ hparent, ih hleft, ih hright,
        hashByHalves_block_succ inside]

omit [FiniteField F] in
/-- All blocks of one height lie inside the leaves. -/
theorem block_inside {depth height place : ℕ} (size : leaves.size = 2 ^ depth)
    (le : height ≤ depth) (inside : place < 2 ^ (depth - height)) :
    (place + 1) * 2 ^ height ≤ leaves.size := by
  have hblocks : 2 ^ (depth - height) * 2 ^ height = leaves.size := by
    rw [size, ← pow_add, Nat.sub_add_cancel le]
  exact hblocks ▸ Nat.mul_le_mul_right _ inside

end Blocks

namespace Tree

variable {leaves : Array (Array F)} {depth : ℕ}

theorem digest_root_ofLeaves (size : leaves.size = 2 ^ depth) :
    (ofLeaves depth leaves).root.digest = hashByHalves leaves.toList := by
  have hwhole : block leaves depth 0 = leaves.toList := by
    rw [block, zero_mul, List.drop_zero, ← size, ← Array.length_toList, List.take_length]
  rw [← hwhole, ← getD_iterate_pairUp (by rw [size, zero_add, one_mul])]
  show (buildLevels depth (leaves.map hashElements)).2 = _
  rw [buildLevels_eq]

/-- The digest beside the way at a height is the hash of the neighbouring block. -/
theorem getElem?_path_ofLeaves (size : leaves.size = 2 ^ depth) {index height : ℕ}
    (inside : index < 2 ^ depth) (below : height < depth) :
    ((ofLeaves depth leaves).opening index).path[height]? =
      some (hashByHalves (block leaves height (sibling (index / 2 ^ height)))) := by
  have hplace : index / 2 ^ height < 2 ^ (depth - height) := by
    rw [Nat.div_lt_iff_lt_mul (Nat.two_pow_pos _), ← pow_add, Nat.sub_add_cancel below.le]
    exact inside
  have hsibling : sibling (index / 2 ^ height) < 2 ^ (depth - height) :=
    sibling_lt (Nat.sub_pos_of_lt below) hplace
  have hlevels : (ofLeaves depth leaves).levels =
      (List.range depth).map fun height => pairUp^[height] (leaves.map hashElements) := by
    show (buildLevels depth (leaves.map hashElements)).1 = _
    rw [buildLevels_eq]
  rw [opening, getElem?_siblingPath, hlevels, List.getElem?_map, List.getElem?_range below]
  exact congrArg some (getD_iterate_pairUp (block_inside size below.le hsibling))

/-- A walk from the place of a leaf to the root of the heap gives the path of its opening. -/
theorem path_ofLeaves_eq_heapPath (size : leaves.size = 2 ^ depth) {index : ℕ}
    (inside : index < 2 ^ depth) :
    ((ofLeaves depth leaves).opening index).path =
      heapPath (heapOf depth (leaves.map hashElements)) (2 ^ depth - 1 + index) := by
  have hdigests : (leaves.map hashElements).size = 2 ^ depth := by rw [Array.size_map, size]
  rw [(filledFrom_heapOf hdigests).heapPath_eq le_rfl inside, Nat.sub_self,
    Function.iterate_zero_apply]
  rfl

/-- The root of a tree is the hash of its leaves by halves, and every digest in its heap
and on the way of an opening is the hash of a block. What is committed depends on the
leaves only, not on whether they come as elements, as columns or as rows. -/
theorem refines_hashByHalves :
    (∀ (leaves : Array (Array F)) (depth width : ℕ), leaves.size = 2 ^ depth → 0 < width →
      (∀ leaf ∈ leaves, leaf.size = width) →
        ∃ tree, ofLeaves? leaves = .ok tree ∧
          tree.root.digest = hashByHalves leaves.toList ∧
          (∀ level ≤ depth, ∀ place < 2 ^ level,
            (heapOf depth (leaves.map hashElements))[2 ^ level - 1 + place]? =
              some (hashByHalves (block leaves (depth - level) place))) ∧
          ∀ index < 2 ^ depth, ∃ opening, tree.open? index = .ok opening ∧
            opening.path = heapPath (heapOf depth (leaves.map hashElements))
              (2 ^ depth - 1 + index) ∧
            opening.path.length = depth ∧
            ∀ height < depth, opening.path[height]? =
              some (hashByHalves (block leaves height (sibling (index / 2 ^ height))))) ∧
    (∀ values : Array F, 0 < values.size →
      ofVector? values = commit? #[values] .columns ∧
        ofVector? values = commit? (values.map fun value => #[value]) .rows) ∧
    ∀ matrix other : Array (Array F), IsTranspose matrix other →
      commit? matrix .columns = commit? other .rows := by
  refine ⟨fun leaves depth width size positive rectangular => ?_,
    fun values nonempty => ofVector?_eq_commit? nonempty,
    fun matrix other transpose => commit?_transpose transpose⟩
  have hdigests : (leaves.map hashElements).size = 2 ^ depth := by rw [Array.size_map, size]
  refine ⟨_, ofLeaves?_eq_ok size positive rectangular, digest_root_ofLeaves size, ?_, ?_⟩
  · intro level hlevel place hplace
    have hblock := block_inside size (Nat.sub_le depth level)
      (by rwa [Nat.sub_sub_self hlevel] : place < 2 ^ (depth - (depth - level)))
    rw [(filledFrom_heapOf hdigests).getElem?_eq hlevel hplace, getD_iterate_pairUp hblock]
  · intro index hindex
    have hinside : index < leaves.size := by rwa [size]
    refine ⟨_, open?_eq_ok hinside, path_ofLeaves_eq_heapPath size hindex,
      (wellFormed_ofLeaves size rectangular).length_path index, ?_⟩
    exact fun height hheight => getElem?_path_ofLeaves size hindex hheight

/-- The third of four leaves has the first two beside its way. -/
theorem refines_hashByHalves_of_four :
    let leaves : Array (Array BabyBear) := #[#[0], #[1], #[1], #[0]]
    let row : Array (Array BabyBear) := #[#[0, 1]]
    let column : Array (Array BabyBear) := #[#[0], #[1]]
    (∃ tree, ofLeaves? leaves = .ok tree ∧
      tree.root.digest = hashByHalves leaves.toList ∧
      ∃ opening, tree.open? 2 = .ok opening ∧
        opening.path[1]? = some (hashByHalves [#[(0 : BabyBear)], #[1]])) ∧
    ofVector? #[(0 : BabyBear), 1, 1, 0] = commit? leaves .rows ∧
    commit? row .columns = commit? column .rows := by
  intro leaves row column
  obtain ⟨htrees, hvectors, hmatrices⟩ := refines_hashByHalves (F := BabyBear)
  have hwidth : ∀ leaf ∈ leaves, leaf.size = 1 := by simp [leaves]
  obtain ⟨tree, htree, hroot, -, hopenings⟩ := htrees leaves 2 1 rfl one_pos hwidth
  obtain ⟨opening, hopening, -, -, hpath⟩ := hopenings 2 (by omega)
  have htranspose : IsTranspose row column := by
    refine ⟨by simp [row, column], by simp [row, column], fun line place => ?_⟩
    rcases line with _ | line <;> rcases place with _ | _ | place <;>
      simp [cell?, row, column]
  have hleaves : leaves = (#[0, 1, 1, 0] : Array BabyBear).map fun value => #[value] := by
    simp [leaves]
  refine ⟨⟨tree, htree, hroot, opening, hopening, hpath 1 one_lt_two⟩, ?_,
    hmatrices row column htranspose⟩
  rw [hleaves]
  exact (hvectors #[0, 1, 1, 0] (Nat.succ_pos 3)).2

end Tree
end Merkle
end OracleProofs

/-
# Merkle trees and their openings

A list of `2 ^ depth` leaves, each a non-empty list of field elements and all of
one width, is committed level by level: the digests of the leaves first, then
the digests of neighbouring pairs, until one digest is left. A matrix is
committed by its columns or by its rows.

An opening shows one leaf of a committed list: its index, its values and the
digests that stand beside the way from the leaf to the root. It is checked by
climbing that way. At each step the lowest bit of the index tells on which side
the sibling stands, and the index must be used up when the root is reached, so
that no leaf can be opened under two indices.

A batch of openings carries the root, the shape of the tree, the queried indices
and one opening for each of them. It is checked against a root and a shape that
the verifier knows; checking it against its own root and shape shows no more than
that it is consistent.
-/

import OracleProofs.Binary.Word
import OracleProofs.Digest.Basic

namespace OracleProofs
namespace Merkle

/-- One leaf with its way to the root. -/
structure Opening (F : Type) where
  index : Nat
  values : Array F
  path : List Digest

/-- The digest that is reached from the digest at `index` along the siblings. -/
def climb : (current : Digest) → (index : Nat) → (path : List Digest) → Digest
  | current, _, [] => current
  | current, index, sibling :: path =>
      let parent := if index % 2 = 0 then hashPair current sibling else hashPair sibling current
      climb parent (index / 2) path

/-- The commitment to a list of leaves. -/
structure Root where
  digest : Digest
  deriving DecidableEq

instance : Inhabited Root := ⟨⟨default⟩⟩

variable {F : Type} [FiniteField F]

namespace Root

/-- Whether an opening shows a leaf of `width` values in a tree of the given
depth under this root. -/
def verify (root : Root) (opening : Opening F) (width depth : Nat) : Bool :=
  opening.path.length = depth && opening.values.size = width &&
    opening.index < 1 <<< depth &&
    climb (hashElements opening.values) opening.index opening.path = root.digest

/-- The text of a root. -/
def describe (root : Root) : String :=
  "MerkleRoot(" ++ root.digest.toHex ++ ")"

end Root

/-- The text of an opening, in which the path is represented by its length. -/
def Opening.describe (opening : Opening F) : String :=
  let values := ", ".intercalate (opening.values.toList.map FiniteField.describe)
  "MerkleOpening \x7b index: " ++ toString opening.index ++ ", values: [" ++ values ++
    "], path_length: " ++ toString opening.path.length ++ " \x7d"

/-- Which lines of a matrix become leaves. -/
inductive Layout where
  | columns
  | rows
  deriving DecidableEq

/-- The digests of the pairs of neighbours. -/
def pairUp (level : Array Digest) : Array Digest :=
  Array.ofFn fun place : Fin (level.size / 2) =>
    hashPair (level.getD (2 * place) default) (level.getD (2 * place + 1) default)

/-- The levels above a level of `2 ^ depth` digests, and that level itself. The
root is not among them but comes beside them. -/
def buildLevels : (depth : Nat) → (level : Array Digest) → List (Array Digest) × Digest
  | 0, level => ([], level.getD 0 default)
  | depth + 1, level =>
      let (above, root) := buildLevels depth (pairUp level)
      (level :: above, root)

/-- The other index of a pair of neighbours. -/
def sibling (index : Nat) : Nat :=
  if index % 2 = 0 then index + 1 else index - 1

/-- The digests beside the way from the leaf at `index` up through the levels. -/
def siblingPath : (levels : List (Array Digest)) → (index : Nat) → List Digest
  | [], _ => []
  | level :: above, index =>
      level.getD (sibling index) default :: siblingPath above (index / 2)

/-- A committed list of leaves. -/
structure Tree (F : Type) where
  /-- There are `2 ^ depth` leaves. -/
  depth : Nat
  leaves : Array (Array F)
  /-- The digests of all levels below the root, the leaves first. -/
  levels : List (Array Digest)
  root : Root

/-- The depth of the tree over leaves that can be committed: a power of two many
and all of one positive width. -/
def leafDepth? (leaves : Array (Array F)) : Except MerkleError Nat :=
  match exactLog2 leaves.size with
  | none => .error (.leafCountNotPowerOfTwo leaves.size)
  | some depth =>
      let width := (leaves.getD 0 #[]).size
      if width = 0 then .error .emptyMatrix
      else match leaves.findIdx? fun leaf => leaf.size ≠ width with
        | some row => .error (.raggedMatrix row)
        | none => .ok depth

namespace Tree

/-- The tree over leaves whose digests are known. -/
def ofDigests (depth : Nat) (leaves : Array (Array F)) (digests : Array Digest) : Tree F :=
  let (levels, root) := buildLevels depth digests
  { depth, leaves, levels, root := ⟨root⟩ }

/-- Commits a list of leaves. -/
def ofLeaves? (leaves : Array (Array F)) : Except MerkleError (Tree F) :=
  (leafDepth? leaves).map fun depth => ofDigests depth leaves (leaves.map hashElements)

/-- Commits a list of elements, each of them a leaf. -/
def ofVector? (values : Array F) : Except MerkleError (Tree F) :=
  let leaves := values.map fun value => #[value]
  (leafDepth? leaves).map fun depth => ofDigests depth leaves (values.map hashElement)

/-- The columns of a matrix whose rows have `width` entries. -/
def columns (matrix : Array (Array F)) (width : Nat) : Array (Array F) :=
  Array.ofFn fun column : Fin width => matrix.map fun row => row.getD column 0

/-- Commits a matrix. It must have an entry and be rectangular, whatever its
layout. -/
def commit? (matrix : Array (Array F)) (layout : Layout) : Except MerkleError (Tree F) :=
  let width := (matrix.getD 0 #[]).size
  if width = 0 then .error .emptyMatrix
  else match matrix.findIdx? fun row => row.size ≠ width with
    | some row => .error (.raggedMatrix row)
    | none => match layout with
        | .rows => ofLeaves? matrix
        | .columns => ofLeaves? (columns matrix width)

/-- The number of leaves. -/
def leafCount (tree : Tree F) : Nat := tree.leaves.size

/-- The number of values in each leaf. -/
def leafWidth (tree : Tree F) : Nat := (tree.leaves.getD 0 #[]).size

/-- The values of a leaf. -/
def leaf? (tree : Tree F) (index : Nat) : Option (Array F) := tree.leaves[index]?

/-- Opens a leaf. -/
def open? (tree : Tree F) (index : Nat) : Except MerkleError (Opening F) :=
  match tree.leaf? index with
  | some values => .ok ⟨index, values, siblingPath tree.levels index⟩
  | none => .error (.queryOutOfRange index tree.leafCount)

/-- Opens leaves in the order in which they are asked for. -/
def openAll? (tree : Tree F) (indices : List Nat) : Except MerkleError (List (Opening F)) :=
  indices.mapM tree.open?

end Tree

/-- The openings of one tree at a list of indices. -/
structure Batch (F : Type) where
  root : Root
  leafCount : Nat
  leafWidth : Nat
  queries : List Nat
  openings : List (Opening F)

namespace Batch

/-- Opens a tree at a list of indices, repetitions included. -/
def ofTree? (tree : Tree F) (queries : List Nat) : Except MerkleError (Batch F) :=
  (tree.openAll? queries).map fun openings =>
    { root := tree.root
      leafCount := tree.leafCount
      leafWidth := tree.leafWidth
      queries
      openings }

/-- Commits a matrix and opens it. -/
def ofMatrix? (matrix : Array (Array F)) (queries : List Nat) (layout : Layout) :
    Except MerkleError (Batch F) := do
  let tree ← Tree.commit? matrix layout
  ofTree? tree queries

/-- Commits a list of elements and opens it. -/
def ofVector? (values : Array F) (queries : List Nat) : Except MerkleError (Batch F) := do
  let tree ← Tree.ofVector? values
  ofTree? tree queries

/-- Whether every opening belongs to its query and to a tree of the given root
and shape. -/
def verifyAgainst (batch : Batch F) (root : Root) (width depth : Nat) : Bool :=
  batch.root = root && batch.queries.length = batch.openings.length &&
    (batch.queries.zip batch.openings).all fun (query, opening) =>
      opening.index = query && root.verify opening width depth

/-- Whether the batch is consistent with the root and the shape it states. -/
def verify (batch : Batch F) : Bool :=
  match exactLog2 batch.leafCount with
  | some depth => batch.verifyAgainst batch.root batch.leafWidth depth
  | none => false

/-- The number of digests in all paths. -/
def pathLength (batch : Batch F) : Nat :=
  total (fun opening => opening.path.length) batch.openings

/-- The number of opened values. -/
def elementCount (batch : Batch F) : Nat :=
  total (fun opening => opening.values.size) batch.openings

end Batch
end Merkle
end OracleProofs

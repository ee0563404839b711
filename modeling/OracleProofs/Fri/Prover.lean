/-
# The prover of the low-degree test

A prover is a value: the words folded so far, with the trees that commit them,
and the final polynomial once there is one. A step answers with a message or an
error and the prover after it. Rounds have to be folded in order, and queries
are answered after the last one.
-/

import OracleProofs.Fri.Parameters
import OracleProofs.Fri.Proof

namespace OracleProofs
namespace Fri

/-- The word of one round with its tree, if the word is committed. -/
structure Layer (F : Type) where
  codeword : Array F
  tree? : Option (Merkle.Tree F)

/-- The state of the prover. -/
structure Prover (F : Type) [FiniteField F] where
  parameters : Parameters F
  /-- One layer per folded round and the one to be folded next. -/
  layers : Array (Layer F)
  finalPolynomial? : Option (Array F)

variable {F : Type} [FiniteField F]

/-- Commits a word by its blocks of `size` neighbours. -/
def commitBlocks? (size : Nat) (codeword : Array F) : Except MerkleError (Merkle.Tree F) :=
  Merkle.Tree.ofLeaves? (blocksOf size codeword)

namespace Round

/-- Commits a word by the leaves of a round. -/
def commit? (round : Round F) (codeword : Array F) : Except MerkleError (Merkle.Tree F) :=
  commitBlocks? round.cosetSize codeword

end Round

namespace Prover

/-- The tree of the first word, if it is to be committed. -/
def commitInitial? (parameters : Parameters F) (codeword : Array F) :
    Except FriError (Option (Merkle.Tree F)) :=
  match parameters.oracle, parameters.rounds with
  | .committed, round :: _ => ((round.commit? codeword).map some).mapError .merkle
  | _, _ => .ok none

/-- Starts from a word in bit-reversed order. -/
def ofBitReversed? (parameters : Parameters F) (codeword : Array F) :
    Except FriError (Prover F) := do
  if codeword.size ≠ parameters.codewordLength then
    .error (.domain (.evaluationCount parameters.codewordLength codeword.size))
  let tree? ← commitInitial? parameters codeword
  return { parameters, layers := #[⟨codeword, tree?⟩], finalPolynomial? := none }

/-- Starts from a word in the order of its domain. -/
def ofEvaluations? (parameters : Parameters F) (values : Array F) :
    Except FriError (Prover F) := do
  if values.size ≠ parameters.codewordLength then
    .error (.domain (.evaluationCount parameters.codewordLength values.size))
  let codeword ← (bitReversed? values).mapError (.domain ∘ .fault)
  ofBitReversed? parameters codeword

/-- The commitment to the first word, if it is committed. -/
def initialRoot? (prover : Prover F) : Option Merkle.Root :=
  (prover.layers[0]?.bind Layer.tree?).map Merkle.Tree.root

/-- The values of the first word in the leaf that holds a position. Outside the
word they count as zero. -/
def initialLeaf (prover : Prover F) (position : Nat) : Array F :=
  let size := prover.parameters.initialCosetSize
  let codeword := (prover.layers[0]?.map Layer.codeword).getD #[]
  Array.ofFn fun offset : Fin size =>
    if position < codeword.size then codeword.getD (position / size * size + offset) 0 else 0

/-- The round that has to be folded next. After the last one it is the number of
rounds. -/
def pendingRound (prover : Prover F) : Nat :=
  if prover.finalPolynomial?.isSome then prover.parameters.roundCount
  else prover.layers.size - 1

/-- The prover after a round that produced `folded`, with the message to send:
the root of the next word, or the final polynomial after the last round. -/
def advance? (prover : Prover F) (nextRound : Nat) (folded : Array F) :
    Except FriError (Message F × Prover F) :=
  match prover.parameters.rounds[nextRound]? with
  | some next => do
      let tree ← (next.commit? folded).mapError .merkle
      return (.commitment tree.root,
        { prover with layers := prover.layers.push ⟨folded, some tree⟩ })
  | none => do
      let natural ← (bitReversed? folded).mapError (.domain ∘ .fault)
      let coefficients ← (prover.parameters.finalDomain.interpolate? natural).mapError .domain
      let finalPolynomial := trimZeros coefficients
      return (.finalPolynomial finalPolynomial,
        { prover with finalPolynomial? := some finalPolynomial })

/-- Folds a round that is pending. -/
def foldPending? (prover : Prover F) (round : Nat) (challenge : F) :
    Except FriError (Message F × Prover F) :=
  match prover.parameters.rounds[round]?, prover.layers[round]? with
  | some stage, some layer => do
      let folded ← (stage.foldWord? layer.codeword challenge).mapError .domain
      prover.advance? (round + 1) folded
  | _, _ => .error (.roundOrder round prover.pendingRound)

/-- Folds a round, which must be the pending one. -/
def foldRound (prover : Prover F) (round : Nat) (challenge : F) :
    Except FriError (Message F) × Prover F :=
  if round ≠ prover.pendingRound then
    (.error (.roundOrder round prover.pendingRound), prover)
  else match prover.foldPending? round challenge with
    | .ok (message, prover) => (.ok message, prover)
    | .error error => (.error error, prover)

/-- The openings of the committed layers, of which the first belongs to `round`. -/
def openLayers? (parameters : Parameters F) (positions : List Nat) :
    (round : Nat) → List (Layer F) → Except MerkleError (List (LayerProof F))
  | _, [] => .ok []
  | round, layer :: rest => do
      match layer.tree? with
      | none => openLayers? parameters positions (round + 1) rest
      | some tree =>
          let openings ← tree.openAll? (parameters.leavesOf round positions)
          let later ← openLayers? parameters positions (round + 1) rest
          return ⟨round, tree.root, openings⟩ :: later

/-- Opens every committed word at the leaves that the positions reach. -/
def query (prover : Prover F) (positions : List Nat) : Except FriError (Proof F) := do
  let some finalPolynomial := prover.finalPolynomial?
    | .error (.roundOrder prover.parameters.roundCount prover.pendingRound)
  let size := prover.parameters.codewordLength
  if let some position := positions.find? (size ≤ ·) then
    .error (.queryPosition position size)
  let layers ← (openLayers? prover.parameters positions 0 prover.layers.toList).mapError .merkle
  return ⟨layers, finalPolynomial⟩

/-- Folds the rounds from `round` on, one challenge each, until one fails. -/
def foldAll (prover : Prover F) (round : Nat) : List F → Except FriError Unit × Prover F
  | [] => (.ok (), prover)
  | challenge :: rest =>
      match prover.foldRound round challenge with
      | (.ok _, prover) => prover.foldAll (round + 1) rest
      | (.error error, prover) => (.error error, prover)

/-- Folds all rounds and answers the queries. Rounds that were folded stay
folded when a later step fails. -/
def prove (prover : Prover F) (challenges : List F) (positions : List Nat) :
    Except FriError (Proof F) × Prover F :=
  if challenges.length ≠ prover.parameters.roundCount then
    (.error (.foldingChallenges prover.parameters.roundCount challenges.length), prover)
  else match prover.foldAll 0 challenges with
    | (.ok _, prover) => (prover.query positions, prover)
    | (.error error, prover) => (.error error, prover)

end Prover
end Fri
end OracleProofs

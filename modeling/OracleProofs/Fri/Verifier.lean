/-
# The verifier of the low-degree test

The verifier authenticates all openings, checks the length of the final
polynomial and follows every queried position through the rounds: the folded
value of each leaf must appear in the leaf of the next round, and the last one
must be a value of the final polynomial. Whatever a proof contains, a check that
would read outside of it is reported as a fault instead of being answered.
-/

import OracleProofs.Fri.Parameters
import OracleProofs.Fri.Proof
import OracleProofs.Random.Source

namespace OracleProofs
namespace Fri
namespace Verifier

variable {F : Type} [FiniteField F]

/-- Whether indices are strictly increasing. -/
def increasing : List Nat → Bool
  | first :: second :: rest => first < second && increasing (second :: rest)
  | _ => true

/-- Whether a layer belongs to the round at place `place`, lists its openings in
order and opens nothing that its root does not commit. -/
def checkLayer (place : Nat) (round : Round F) (layer : LayerProof F) : Bool :=
  layer.round = place &&
    increasing (layer.openings.map Merkle.Opening.index) &&
    layer.openings.all fun opening =>
      layer.root.verify opening round.cosetSize round.treeDepth

/-- Whether layers belong to the given rounds, of which the first is at `place`. -/
def checkLayers : (place : Nat) → List (Round F) → List (LayerProof F) → Bool
  | place, round :: rounds, layer :: layers =>
      checkLayer place round layer && checkLayers (place + 1) rounds layers
  | _, _, _ => true

/-- The values of the leaf that a query reads next, and the layers that are left
for later rounds. The values that a virtual first word has there are given;
those of a committed word are looked up in its layer. -/
def readLeaf (given? : Option (Array F)) (layers : List (LayerProof F)) (leaf : Nat) :
    Except Fault (Option (Array F) × List (LayerProof F)) :=
  match given?, layers with
  | some values, layers => .ok (some values, layers)
  | none, layer :: rest => .ok (layer.leaf? leaf, rest)
  | none, [] => .error .outOfRange

/-- Whether the value that an earlier round folded to stands at the position in
a leaf. There is no such value before the first round. -/
def continues (expected? : Option F) (values : Array F) (offset : Nat) : Except Fault Bool :=
  match expected?, values[offset]? with
  | none, _ => .ok true
  | some expected, some value => .ok (value = expected)
  | some _, none => .error .outOfRange

/-- The folded value of a leaf, or nothing if the leaf cannot be folded. -/
def foldOpened (round : Round F) (challenge : F) (leaf : Nat) (values : Array F) :
    Except Fault (Option F) :=
  match FiniteField.inverse? (round.cosetBase leaf) with
  | none => .ok none
  | some inverse => match foldCoset? round.subgroup values (challenge * inverse) with
      | .ok value => .ok (some value)
      | .error (.fault cause) => .error cause
      | .error _ => .ok none

/-- Follows one position through the remaining rounds. -/
def followQuery (finalDomain : Coset F) (finalPolynomial : Array F) :
    (steps : List (Round F × F)) → (layers : List (LayerProof F)) →
    (given? : Option (Array F)) → (expected? : Option F) → (position : Nat) →
    Except Fault Bool
  | [], _, _, expected?, position =>
      let point := finalDomain.element (reverseBits finalDomain.dimension position)
      .ok (expected? = some (FiniteField.horner finalPolynomial point))
  | (round, challenge) :: steps, layers, given?, expected?, position => do
      let leaf := position / round.cosetSize
      let (values?, layers) ← readLeaf given? layers leaf
      let some values := values? | return false
      if values.size ≠ round.cosetSize then return false
      if !(← continues expected? values (position % round.cosetSize)) then return false
      let some value ← foldOpened round challenge leaf values | return false
      followQuery finalDomain finalPolynomial steps layers none (some value) leaf

/-- Follows one position of the first word, if it lies inside. -/
def checkQuery (parameters : Parameters F) (proof : Proof F) (challenges : List F)
    (given? : Option (Array F)) (position : Nat) : Except Fault Bool :=
  if parameters.codewordLength ≤ position then .ok false
  else followQuery parameters.finalDomain proof.finalPolynomial
    (parameters.rounds.zip challenges) proof.layers given? none position

/-- Whether all checks answer yes, in order, up to the first that does not. -/
def allM {α : Type} (check : α → Except Fault Bool) : List α → Except Fault Bool
  | [] => .ok true
  | first :: rest => do
      if ← check first then allM check rest else return false

/-- The checks common to both kinds of first word. For a virtual one, the values
of the leaf of each position are given. -/
def check (parameters : Parameters F) (proof : Proof F) (challenges : List F)
    (positions : List Nat) (given? : Option (List (Array F))) : Except Fault Bool :=
  let first := if given?.isSome then 1 else 0
  if challenges.length ≠ parameters.roundCount then .ok false
  else if proof.layers.length ≠ parameters.roundCount - first then .ok false
  else if !checkLayers first (parameters.rounds.drop first) proof.layers then .ok false
  else if parameters.finalDegreeBound < proof.finalPolynomial.size then .ok false
  else match given? with
    | none => allM (checkQuery parameters proof challenges none) positions
    | some given => allM (fun (position, values) =>
        checkQuery parameters proof challenges (some values) position) (positions.zip given)

/-- Checks a proof about a committed word. -/
def verify (parameters : Parameters F) (proof : Proof F) (challenges : List F)
    (positions : List Nat) : Except Fault Bool :=
  match parameters.oracle with
  | .committed => check parameters proof challenges positions none
  | .virtual => .ok false

/-- Checks a proof about a virtual word, of which the leaf of each position is
given. -/
def verifyGiven (parameters : Parameters F) (proof : Proof F) (challenges : List F)
    (positions : List Nat) (given : List (Array F)) : Except Fault Bool :=
  match parameters.oracle with
  | .committed => .ok false
  | .virtual =>
      if given.length ≠ positions.length then .ok false
      else check parameters proof challenges positions (some given)

variable {S : Type} [RandomSource S]

/-- One random challenge per round. -/
def sampleChallenges? [Drawable F] (parameters : Parameters F) (source : S) :
    Except Fault (List F × S) :=
  drawMany? (FiniteField.width F) Drawable.draw parameters.roundCount source

/-- The distinct positions among `count` random ones, in increasing order. They
are words, and all of them are drawn before they are sorted. -/
def samplePositions? (parameters : Parameters F) (count : Nat) (source : S) :
    Except Fault (List Nat × S) :=
  (drawMany? wordBytes (drawPosition parameters.codewordLength) count source).map
    fun (positions, source) => (sortedDistinct positions, source)

end Verifier
end Fri
end OracleProofs

/-
# The verifier of the sumcheck

The verifier knows the public polynomials and the target. From the opened values
it computes the combined codeword of every repetition at the leaves that are
queried and leaves the rest to the low-degree test. Whatever a proof contains, a
check that would read outside of it is reported as a fault instead of being
answered.
-/

import OracleProofs.Fri.Verifier
import OracleProofs.Sumcheck.Combination
import OracleProofs.Sumcheck.Proof

namespace OracleProofs
namespace Sumcheck

/-- What the verifier knows. -/
structure Verifier (F : Type) [FiniteField F] where
  parameters : Parameters F
  /-- The words of the public polynomials. -/
  publicWords : List (Array F)
  target : F

/-- What is known of one position of a leaf: its factors and the values of the
inner product and of the blinding polynomial there. -/
structure OpenedPoint (F : Type) where
  factors : PointFactors F
  inner : F
  blinding : F

/-- Reads an entry that must exist. -/
def readEntry {α : Type} (entries : Array α) (place : Nat) : Except Fault α :=
  match entries[place]? with
  | some entry => .ok entry
  | none => .error .outOfRange

namespace Verifier

variable {F : Type} [FiniteField F]

/-- The verifier for public polynomials. -/
def new (parameters : Parameters F) (publicPolys : List (DensePoly F)) (target : F) :
    Verifier F :=
  { parameters, publicWords := publicPolys.map parameters.codeword, target }

/-- The word of a public polynomial given by its values in the order of the
codeword domain. -/
def wordOfEvaluations? (parameters : Parameters F) (values : Array F) :
    Except SumcheckError (Array F) :=
  if values.size = parameters.codewordLength then
    (bitReversed? values).mapError .ofFault
  else .error (.fri (.domain (.evaluationCount parameters.codewordLength values.size)))

/-- The verifier for public polynomials given by their values. -/
def ofEvaluations? (parameters : Parameters F) (evaluations : List (Array F)) (target : F) :
    Except SumcheckError (Verifier F) := do
  let publicWords ← evaluations.mapM (wordOfEvaluations? parameters)
  return { parameters, publicWords, target }

/-- The sum over all public words of their value at a position times the opened
value of the secret word of the same number, of which the first is at `place`. -/
def innerAt (cosetSize position : Nat) (values : Array F) :
    (place : Nat) → (publicWords : List (Array F)) → Except Fault F
  | _, [] => .ok 0
  | place, word :: rest => do
      let known ← readEntry word position
      let opened ← readEntry values place
      let later ← innerAt cosetSize position values (place + cosetSize) rest
      return known * opened + later

/-- What an opening of the secret words tells about the positions of its leaf. -/
def openedLeaf (verifier : Verifier F) (leaf : Nat) (opening : Merkle.Opening F) :
    Except Fault (List (OpenedPoint F)) :=
  let cosetSize := verifier.parameters.cosetSize
  (List.range cosetSize).mapM fun offset => do
    let position := leaf * cosetSize + offset
    let inner ← innerAt cosetSize position opening.values offset verifier.publicWords
    let blinding ←
      readEntry opening.values (verifier.publicWords.length * cosetSize + offset)
    return { factors := PointFactors.ofPosition verifier.parameters position, inner, blinding }

/-- The values of the combined codeword of a repetition on one leaf, from what
is known of its positions and an opening of the quotients. -/
def combinedLeaf (rule : CombinationRule F) (cosetSize repetition : Nat)
    (points : List (OpenedPoint F)) (opening : Merkle.Opening F) : Except Fault (Array F) := do
  let values ← points.zipIdx.mapM fun (point, offset) => do
    let quotient ← readEntry opening.values (repetition * cosetSize + offset)
    return rule.evaluate point.factors point.inner point.blinding quotient
  return values.toArray

/-- The values of the combined codeword of a repetition on all opened leaves. -/
def combinedLeaves (rule : CombinationRule F) (cosetSize repetition : Nat)
    (opened : Array (List (OpenedPoint F))) (openings : List (Merkle.Opening F)) :
    Except Fault (Array (Array F)) := do
  let leaves ← openings.zipIdx.mapM fun (opening, slot) => do
    combinedLeaf rule cosetSize repetition (← readEntry opened slot) opening
  return leaves.toArray

/-- Runs the low-degree test of one repetition. -/
def checkRepetition (verifier : Verifier F) (proof : Proof F) (queries leaves : List Nat)
    (opened : Array (List (OpenedPoint F))) (repetition : Nat)
    (challenges : RepetitionChallenges F) (friProof : Fri.Proof F) : Except Fault Bool := do
  let parameters := verifier.parameters
  let rule := CombinationRule.new parameters challenges.batching challenges.combination
    verifier.target proof.firstMessage.blindingSum
  let combined ← combinedLeaves rule parameters.cosetSize repetition opened
    proof.quotientOpenings.openings
  let given ← queries.mapM fun position =>
    let leaf := parameters.fri.leafOf 0 position
    readEntry combined (leaves.findIdx (leaf ≤ ·))
  Fri.Verifier.verifyGiven parameters.fri friProof challenges.folding queries given

/-- Whether the secret openings and the quotient openings are those of the given
leaves under the roots in the messages. -/
def checkOpenings (verifier : Verifier F) (proof : Proof F) (leaves : List Nat) : Bool :=
  let parameters := verifier.parameters
  let secretWidth := (verifier.publicWords.length + 1) * parameters.cosetSize
  let quotientWidth := parameters.repetitions * parameters.cosetSize
  proof.secretOpenings.queries = leaves &&
    proof.secretOpenings.verifyAgainst proof.firstMessage.secretRoot secretWidth
      parameters.treeDepth &&
    proof.quotientOpenings.queries = leaves &&
    proof.quotientOpenings.verifyAgainst proof.quotientRoot quotientWidth parameters.treeDepth

/-- Checks a proof under the given challenges at the given positions. -/
def verify (verifier : Verifier F) (proof : Proof F) (challenges : Challenges F)
    (queries : List Nat) : Except Fault Bool := do
  let parameters := verifier.parameters
  if challenges.length ≠ parameters.repetitions ||
      proof.friProofs.length ≠ parameters.repetitions then
    return false
  if queries.any (parameters.codewordLength ≤ ·) then return false
  let leaves := parameters.fri.leavesOf 0 queries
  if !verifier.checkOpenings proof leaves then return false
  let opened ← (leaves.zip proof.secretOpenings.openings).mapM fun (leaf, opening) =>
    verifier.openedLeaf leaf opening
  Fri.Verifier.allM
    (fun ((challenges, friProof), repetition) =>
      verifier.checkRepetition proof queries leaves opened.toArray repetition challenges friProof)
    (challenges.zip proof.friProofs).zipIdx

variable [Drawable F] {S : Type} [RandomSource S]

/-- One batching challenge per repetition. -/
def sampleBatching? (verifier : Verifier F) (source : S) : Except Fault (List F × S) :=
  drawMany? (FiniteField.width F) Drawable.draw verifier.parameters.repetitions source

/-- Four combination challenges per repetition. -/
def sampleCombination? (verifier : Verifier F) (source : S) :
    Except Fault (List (Combination F) × S) :=
  drawMany? (4 * FiniteField.width F) Combination.draw verifier.parameters.repetitions source

/-- One folding challenge per repetition. -/
def sampleFolding? (verifier : Verifier F) (source : S) : Except Fault (List F × S) :=
  drawMany? (FiniteField.width F) Drawable.draw verifier.parameters.repetitions source

/-- The distinct positions among `count` random ones. -/
def sampleQueries? (verifier : Verifier F) (count : Nat) (source : S) :
    Except Fault (List Nat × S) :=
  Fri.Verifier.samplePositions? verifier.parameters.fri count source

end Verifier
end Sumcheck
end OracleProofs

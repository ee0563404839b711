/-
# The prover of the sumcheck

The prover commits the secret words first, answers the batching challenges with
a commitment to the quotients, combines quotients and inner products to one word
per repetition, and runs the low-degree test on all of these words in parallel.
Committing quotients again starts over from there. A step answers with a message
or an error and the prover after it.
-/

import OracleProofs.Fri.Prover
import OracleProofs.Polynomial.Product
import OracleProofs.Sumcheck.Combination
import OracleProofs.Sumcheck.Proof

namespace OracleProofs
namespace Sumcheck

/-- The quotients that answer a list of batching challenges. -/
structure QuotientRound (F : Type) where
  batching : List F
  /-- One word per repetition. -/
  words : List (Array F)
  tree : Merkle.Tree F

/-- The state of the prover. -/
structure Prover (F : Type) [FiniteField F] where
  parameters : Parameters F
  publicWords : List (Array F)
  secretWords : List (Array F)
  blindingWord : Array F
  innerQuotient : DensePoly F
  blindingQuotient : DensePoly F
  /-- The sum that the polynomials have over the summation domain. -/
  target : F
  blindingSum : F
  secretTree : Merkle.Tree F
  quotients? : Option (QuotientRound F)
  /-- One prover per repetition, once the words are combined. -/
  friProvers : List (Fri.Prover F)

namespace Prover

variable {F : Type} [FiniteField F]

/-- Refuses a degree that reaches the bound. -/
def checkDegree (degree bound : Nat) : Except SumcheckError Unit :=
  if bound ≤ degree then .error (.degreeBoundExceeded degree bound) else .ok ()

/-- Refuses the first pair whose product has too large a degree. Products with
the zero polynomial have none. -/
def checkPairs (bound : Nat) : List (DensePoly F × DensePoly F) → Except SumcheckError Unit
  | [] => .ok ()
  | (p, s) :: rest => do
      if !p.isZero && !s.isZero then checkDegree (p.degree + s.degree) bound
      checkPairs bound rest

/-- The sum of the products of the pairs. -/
def innerProduct (pairs : List (DensePoly F × DensePoly F)) : DensePoly F :=
  pairs.foldl (fun sum (p, s) => sum + p.multiply s) 0

/-- Commits words so that each leaf holds one block of neighbours of every word. -/
def commitWords? (parameters : Parameters F) (words : List (Array F)) :
    Except SumcheckError (Merkle.Tree F) :=
  (Merkle.Tree.commit? (cosetMatrix words parameters.cosetSize) .columns).mapError
    (.fri ∘ .merkle)

/-- Starts from the polynomials and commits the secret ones together with the
blinding polynomial. -/
def new? (parameters : Parameters F) (publicPolys secretPolys : List (DensePoly F))
    (blinding : DensePoly F) : Except SumcheckError (Prover F) := do
  if publicPolys.length ≠ secretPolys.length then
    .error (.mismatchedPairs publicPolys.length secretPolys.length)
  let pairs := publicPolys.zip secretPolys
  checkPairs parameters.degreeBound pairs
  checkDegree blinding.degree parameters.degreeBound
  let inner := innerProduct pairs
  let target ← (parameters.summation.sum? inner).mapError (.fri ∘ .domain)
  let blindingSum ← (parameters.summation.sum? blinding).mapError (.fri ∘ .domain)
  let secretWords := secretPolys.map parameters.codeword
  let blindingWord := parameters.codeword blinding
  let secretTree ← commitWords? parameters (secretWords ++ [blindingWord])
  return {
    parameters
    publicWords := publicPolys.map parameters.codeword
    secretWords
    blindingWord
    innerQuotient := (parameters.vanishing.divide inner).quotient
    blindingQuotient := (parameters.vanishing.divide blinding).quotient
    target
    blindingSum
    secretTree
    quotients? := none
    friProvers := [] }

/-- The message before any challenge. -/
def firstMessage (prover : Prover F) : FirstMessage F :=
  ⟨prover.secretTree.root, prover.blindingSum⟩

/-- Refuses a number of challenges other than the number of repetitions. -/
def checkRepetitions (prover : Prover F) (found : Nat) : Except SumcheckError Unit :=
  if found ≠ prover.parameters.repetitions then
    .error (.repetitionChallenges prover.parameters.repetitions found)
  else .ok ()

/-- The word of the quotient for a batching challenge. Division by the vanishing
polynomial is linear, so the two quotients are batched like the dividends. -/
def quotientWord (prover : Prover F) (batching : F) : Array F :=
  prover.parameters.codeword (prover.innerQuotient.scale batching + prover.blindingQuotient)

/-- The quotients for batching challenges, if there is one per repetition. -/
def quotientRound? (prover : Prover F) (batching : List F) :
    Except SumcheckError (QuotientRound F) := do
  prover.checkRepetitions batching.length
  let words := batching.map prover.quotientWord
  let tree ← commitWords? prover.parameters words
  return { batching, words, tree }

/-- Commits the quotients for one batching challenge per repetition. -/
def commitQuotients (prover : Prover F) (batching : List F) :
    Except SumcheckError Merkle.Root × Prover F :=
  match prover.quotientRound? batching with
  | .ok quotients =>
      (.ok quotients.tree.root, { prover with quotients? := some quotients, friProvers := [] })
  | .error error => (.error error, prover)

/-- The value of `Σ pᵢ * sᵢ` at every position. -/
def innerWord (prover : Prover F) : Array F :=
  (prover.publicWords.zip prover.secretWords).foldl
    (fun sum (p, s) => Array.zipWith (· + ·) sum (Array.zipWith (· * ·) p s))
    (Array.replicate prover.parameters.codewordLength 0)

/-- The combined word of one repetition. -/
def combinedWord (prover : Prover F) (points : Array (PointFactors F)) (inner : Array F)
    (rule : CombinationRule F) (quotient : Array F) : Array F :=
  Array.ofFn fun position : Fin points.size =>
    rule.evaluate points[position] (inner.getD position 0)
      (prover.blindingWord.getD position 0) (quotient.getD position 0)

/-- The combined words of all repetitions. -/
def combinedWords (prover : Prover F) (quotients : QuotientRound F)
    (combination : List (Combination F)) : List (Array F) :=
  let points := Array.ofFn fun position : Fin prover.parameters.codewordLength =>
    PointFactors.ofPosition prover.parameters position
  let inner := prover.innerWord
  ((quotients.batching.zip combination).zip quotients.words).map
    fun ((batching, coefficients), word) =>
      prover.combinedWord points inner
        (.new prover.parameters batching coefficients prover.target prover.blindingSum) word

/-- The provers of the low-degree test for combination challenges, if quotients
were committed and there is one challenge per repetition. -/
def combined? (prover : Prover F) (combination : List (Combination F)) :
    Except SumcheckError (List (Fri.Prover F)) := do
  let some quotients := prover.quotients? | .error .quotientsNotCommitted
  prover.checkRepetitions combination.length
  ((prover.combinedWords quotients combination).mapM
    (Fri.Prover.ofBitReversed? prover.parameters.fri)).mapError .fri

/-- Combines the committed quotients and hands the words to the low-degree test. -/
def combine (prover : Prover F) (combination : List (Combination F)) :
    Except SumcheckError Unit × Prover F :=
  match prover.combined? combination with
  | .ok friProvers => (.ok (), { prover with friProvers })
  | .error error => (.error error, prover)

/-- Whether folding may be attempted: the low-degree test has begun, and there
is one challenge per repetition. -/
def checkFolding (prover : Prover F) (found : Nat) : Except SumcheckError Unit := do
  if prover.friProvers.isEmpty then .error .friNotStarted
  prover.checkRepetitions found

/-- Folds a round of every repetition, one challenge each. -/
def foldRound (prover : Prover F) (round : Nat) (challenges : List F) :
    Except SumcheckError (List (Fri.Message F)) × Prover F :=
  match prover.checkFolding challenges.length with
  | .error error => (.error error, prover)
  | .ok () =>
      let answers := List.zipWith (fun fri challenge => Fri.Prover.foldRound fri round challenge)
        prover.friProvers challenges
      ((answers.mapM Prod.fst).mapError .fri, { prover with friProvers := answers.map Prod.snd })

/-- Opens the secret words, the quotients and all words of the low-degree test
at the given positions. -/
def query (prover : Prover F) (queries : List Nat) : Except SumcheckError (Proof F) := do
  let some quotients := prover.quotients? | .error .quotientsNotCommitted
  if prover.friProvers.isEmpty then .error .friNotStarted
  let size := prover.parameters.codewordLength
  if let some position := queries.find? (size ≤ ·) then
    .error (.fri (.queryPosition position size))
  let friProofs ←
    (prover.friProvers.mapM fun (fri : Fri.Prover F) => fri.query queries).mapError .fri
  let leaves := prover.parameters.fri.leavesOf 0 queries
  let secretOpenings ← (Merkle.Batch.ofTree? prover.secretTree leaves).mapError (.fri ∘ .merkle)
  let quotientOpenings ← (Merkle.Batch.ofTree? quotients.tree leaves).mapError (.fri ∘ .merkle)
  return {
    firstMessage := prover.firstMessage
    quotientRoot := quotients.tree.root
    secretOpenings
    quotientOpenings
    friProofs }

end Prover
end Sumcheck
end OracleProofs

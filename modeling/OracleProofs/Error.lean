/-
# Faults and errors

An error is an answer: it tells a caller which of its parameters cannot be used.
A fault is the lack of an answer. It is met only by a request that breaks a
promise every caller makes, such as reading past the end of a word, or by a
search that never ends, and the functions of the library name it rather than
invent a value. Where a statement says that an operation never fails in this
way, it says that no fault is ever reached.

Each layer has the errors of the layers below it among its own.
-/

namespace OracleProofs

/-- The reasons for the lack of an answer. Each constructor carries what its
message needs. -/
inductive Fault where
  /-- A permutation of bits was asked of a word whose length is not a power of two. -/
  | lengthNotPowerOfTwo (length : Nat)
  /-- A sub-coset larger than its coset was asked for. -/
  | subsetTooLarge (subset dimension : Nat)
  /-- A polynomial was divided by zero. -/
  | zeroDivisor
  /-- An index lies outside what it indexes. -/
  | outOfRange
  /-- A count or a shift does not fit a 64-bit word, or a list is too long to be
  held in memory. -/
  | overflow
  /-- A source of random words has none of those that are searched for. -/
  | endless
  deriving DecidableEq, Repr

/-- The text of a fault. Only the first three have one, because the others say
nothing that the request does not already say. -/
def Fault.message : Fault → Option String
  | .lengthNotPowerOfTwo length => some s!"length {length} is not a power of two"
  | .subsetTooLarge subset dimension =>
      some s!"subset of dimension {subset} in a domain of dimension {dimension}"
  | .zeroDivisor => some "division by the zero polynomial"
  | .outOfRange => none
  | .overflow => none
  | .endless => none

/-- The reasons why a domain is refused, or a word refused by a domain. -/
inductive DomainError where
  /-- The size is not a power of two. -/
  | invalidSize (size : Nat)
  /-- The units of the field have no subgroup of this size. -/
  | unsupportedSize (size : Nat)
  /-- A coset of zero would be the single point zero. -/
  | zeroShift
  /-- An affine subspace was asked for over a field of odd characteristic. -/
  | notBinary
  /-- The basis vector at `index` is a sum of earlier ones. -/
  | dependentBasis (index : Nat)
  /-- A word has another length than its domain. -/
  | evaluationCount (expected found : Nat)
  /-- The request breaks a promise that callers make. -/
  | fault (cause : Fault)
  deriving DecidableEq, Repr

namespace DomainError

/-- The name by which reports call an error. -/
def kind : DomainError → String
  | .invalidSize _ => "InvalidDomain"
  | .unsupportedSize _ => "UnsupportedDomainSize"
  | .zeroShift => "ZeroShift"
  | .notBinary => "NotBinaryField"
  | .dependentBasis _ => "DependentBasis"
  | .evaluationCount _ _ => "EvaluationLength"
  | .fault _ => "Fault"

/-- The text of an error. -/
def message : DomainError → Option String
  | .invalidSize size => some s!"domain size {size} is not a power of two"
  | .unsupportedSize size => some s!"field has no subgroup of size {size}"
  | .zeroShift => some "coset shift must be non-zero"
  | .notBinary => some "affine subspaces require a field of characteristic two"
  | .dependentBasis index =>
      some s!"basis vector {index} lies in the span of the previous ones"
  | .evaluationCount expected found => some s!"expected {expected} evaluations, found {found}"
  | .fault cause => cause.message

end DomainError

/-- The reasons why a commitment is refused, or an opening. -/
inductive MerkleError where
  /-- There are no rows, or the first one is empty. -/
  | emptyMatrix
  /-- The row at `row` has another length than the first one. -/
  | raggedMatrix (row : Nat)
  /-- The number of leaves is not a power of two. -/
  | leafCountNotPowerOfTwo (leaves : Nat)
  /-- There is no leaf at `index`. -/
  | queryOutOfRange (index leaves : Nat)
  deriving DecidableEq, Repr

namespace MerkleError

/-- The name by which reports call an error. -/
def kind : MerkleError → String
  | .emptyMatrix => "EmptyMatrix"
  | .raggedMatrix _ => "RaggedMatrix"
  | .leafCountNotPowerOfTwo _ => "LeafCountNotPowerOfTwo"
  | .queryOutOfRange _ _ => "QueryOutOfRange"

/-- The text of an error. -/
def message : MerkleError → String
  | .emptyMatrix => "cannot commit to an empty matrix"
  | .raggedMatrix row => s!"row {row} has a different length than the first row"
  | .leafCountNotPowerOfTwo leaves => s!"{leaves} leaves do not form a full binary tree"
  | .queryOutOfRange index leaves =>
      s!"leaf {index} requested from a tree with {leaves} leaves"

end MerkleError

/-- The reasons why parameters of the low-degree test are refused, or a step of
its prover. -/
inductive FriError where
  /-- There is no round, or a round that folds nothing. -/
  | invalidLocalization
  /-- All rounds together fold more dimensions than the domain has. -/
  | localizationTooDeep (reduction dimension : Nat)
  /-- The degree bound is zero or exceeds the size of the domain. -/
  | invalidDegreeBound (bound size : Nat)
  /-- The degree bound would not stay a whole number through all rounds. -/
  | unalignedDegreeBound (bound factor : Nat)
  /-- The domain is an affine subspace. -/
  | additiveDomain
  /-- A round was asked for out of turn. -/
  | roundOrder (requested expected : Nat)
  /-- The number of challenges is not the number of rounds. -/
  | foldingChallenges (expected found : Nat)
  /-- A position lies outside the codeword. -/
  | queryPosition (position size : Nat)
  /-- A domain refused. -/
  | domain (error : DomainError)
  /-- A commitment refused. -/
  | merkle (error : MerkleError)
  deriving DecidableEq, Repr

namespace FriError

/-- The name by which reports call an error. -/
def kind : FriError → String
  | .invalidLocalization => "InvalidLocalization"
  | .localizationTooDeep _ _ => "LocalizationTooDeep"
  | .invalidDegreeBound _ _ => "InvalidDegreeBound"
  | .unalignedDegreeBound _ _ => "UnalignedDegreeBound"
  | .additiveDomain => "AdditiveDomain"
  | .roundOrder _ _ => "RoundOrder"
  | .foldingChallenges _ _ => "FoldingChallenges"
  | .queryPosition _ _ => "QueryPosition"
  | .domain error => error.kind
  | .merkle error => error.kind

/-- The text of an error. -/
def message : FriError → Option String
  | .invalidLocalization => some "localization parameters must be non-empty and positive"
  | .localizationTooDeep reduction dimension =>
      some s!"localization removes {reduction} dimensions from a domain of dimension {dimension}"
  | .invalidDegreeBound bound size =>
      some s!"degree bound {bound} is not usable on a domain of size {size}"
  | .unalignedDegreeBound bound factor =>
      some s!"degree bound {bound} is not a multiple of the folding factor {factor}"
  | .additiveDomain => some "protocol only runs over multiplicative cosets"
  | .roundOrder requested expected =>
      some s!"round {requested} requested while round {expected} is pending"
  | .foldingChallenges expected found =>
      some s!"expected {expected} folding challenges, found {found}"
  | .queryPosition position size =>
      some s!"query position {position} lies outside a domain of size {size}"
  | .domain error => error.message
  | .merkle error => some error.message

end FriError

/-- The reasons why parameters of the sumcheck are refused, or a step of its
prover. -/
inductive SumcheckError where
  /-- The public and the secret polynomials do not pair up. -/
  | mismatchedPairs (publicCount secretCount : Nat)
  /-- A product of a pair, or the blinding polynomial, has too large a degree. -/
  | degreeBoundExceeded (degree bound : Nat)
  /-- The summation domain leaves no room below the degree bound. -/
  | summationDomainTooLarge (size bound : Nat)
  /-- The size of the summation domain is zero in the field. -/
  | summationSizeNotInvertible (size : Nat)
  /-- There is no repetition. -/
  | noRepetitions
  /-- The number of challenges is not the number of repetitions. -/
  | repetitionChallenges (expected found : Nat)
  /-- The quotients have to be committed first. -/
  | quotientsNotCommitted
  /-- The codewords have to be combined first. -/
  | friNotStarted
  /-- The low-degree test refused. -/
  | fri (error : FriError)
  deriving DecidableEq, Repr

namespace SumcheckError

/-- A fault met on the way to an answer. -/
def ofFault (fault : Fault) : SumcheckError := .fri (.domain (.fault fault))

/-- The name by which reports call an error. -/
def kind : SumcheckError → String
  | .mismatchedPairs _ _ => "MismatchedPairs"
  | .degreeBoundExceeded _ _ => "DegreeBoundExceeded"
  | .summationDomainTooLarge _ _ => "SummationDomainTooLarge"
  | .summationSizeNotInvertible _ => "SummationSizeNotInvertible"
  | .noRepetitions => "NoRepetitions"
  | .repetitionChallenges _ _ => "RepetitionChallenges"
  | .quotientsNotCommitted => "QuotientsNotCommitted"
  | .friNotStarted => "FriNotStarted"
  | .fri error => error.kind

/-- The text of an error. -/
def message : SumcheckError → Option String
  | .mismatchedPairs publicCount secretCount =>
      some (s!"{publicCount} public polynomials cannot be paired with " ++
        s!"{secretCount} secret polynomials")
  | .degreeBoundExceeded degree bound =>
      some s!"polynomial of degree {degree} does not respect degree bound {bound}"
  | .summationDomainTooLarge size bound =>
      some s!"summation domain of size {size} must be smaller than degree bound {bound}"
  | .summationSizeNotInvertible size =>
      some s!"summation domain size {size} is not invertible in the field"
  | .noRepetitions => some "at least one repetition is required"
  | .repetitionChallenges expected found =>
      some s!"expected challenges for {expected} repetitions, found {found}"
  | .quotientsNotCommitted =>
      some "quotients must be committed before the combination challenges are used"
  | .friNotStarted => some "FRI rounds requested before the codewords were combined"
  | .fri error => error.message

end SumcheckError
end OracleProofs

/-
# Parameters of the low-degree test and folding

The test takes a word over a coset and convinces a verifier that it is close to
a polynomial below a degree bound. In every round the points of the domain are
joined in groups of `2 ^ η`, which divides both the size of the domain and the
degree bound by that factor; the list of the exponents `η` is called the
localization. Words are stored bit-reversed, so a group is a block of
neighbours, called a leaf, and a position moves to the next round by losing its
lowest `η` bits.

A leaf holds the values of a polynomial of fewer than `2 ^ η` coefficients on a
coset `x₀ * ⟨μ⟩`. Folding by a challenge evaluates that polynomial at the
challenge. Dividing the points by `x₀` turns the coset into the subgroup and the
challenge `α` into `α / x₀`, so one subgroup serves all leaves of a round.
-/

import OracleProofs.Domain.Basic

namespace OracleProofs
namespace Fri

/-- Whether the verifier reads the first word through a commitment of this test
or learns its values in another way. -/
inductive InitialOracle where
  | committed
  | virtual
  deriving DecidableEq

/-- One round: the domain of its word, the exponent by which it folds, and the
subgroup whose cosets are folded to points. -/
structure Round (F : Type) [FiniteField F] where
  domain : Coset F
  exponent : Nat
  subgroup : Coset F

/-- The rounds, the domain of the last word and the degree bound. -/
structure Parameters (F : Type) [FiniteField F] where
  rounds : List (Round F)
  finalDomain : Coset F
  degreeBound : Nat
  oracle : InitialOracle

variable {F : Type} [FiniteField F]

namespace Round

/-- The number of points that are joined into one. -/
def cosetSize (round : Round F) : Nat := 1 <<< round.exponent

/-- The depth of a tree that has the leaves of the round. -/
def treeDepth (round : Round F) : Nat := round.domain.dimension - round.exponent

/-- The first point of a leaf. -/
def cosetBase (round : Round F) (leaf : Nat) : F :=
  round.domain.element (reverseBits round.domain.dimension (leaf * round.cosetSize))

end Round

namespace Parameters

/-- The rounds that fold `domain` by the exponents of a localization, and the
domain that is left at the end. -/
def buildRounds? (domain : Coset F) :
    (localization : List Nat) → Except DomainError (List (Round F) × Coset F)
  | [] => .ok ([], domain)
  | exponent :: rest => do
      let subgroup ← Coset.subgroup? (1 <<< exponent)
      let next ← domain.power? exponent
      let (rounds, last) ← buildRounds? next rest
      return (⟨domain, exponent, subgroup⟩ :: rounds, last)

/-- Parameters with a committed first word. The exponents must be positive and
leave a domain, and the degree bound must be a positive multiple of the factor
by which all rounds together divide it. -/
def new? (domain : EvaluationDomain F) (degreeBound : Nat) (localization : List Nat) :
    Except FriError (Parameters F) := do
  let some initial := domain.asCoset? | .error .additiveDomain
  if localization.isEmpty || localization.contains 0 then .error .invalidLocalization
  let some reduction := wordSum? localization | .error (.domain (.fault .overflow))
  if initial.dimension < reduction then
    .error (.localizationTooDeep reduction initial.dimension)
  if degreeBound = 0 || initial.size < degreeBound then
    .error (.invalidDegreeBound degreeBound initial.size)
  if degreeBound % (1 <<< reduction) ≠ 0 then
    .error (.unalignedDegreeBound degreeBound (1 <<< reduction))
  let (rounds, finalDomain) ← (buildRounds? initial localization).mapError .domain
  return { rounds, finalDomain, degreeBound, oracle := .committed }

/-- The same parameters with another kind of first word. -/
def withOracle (parameters : Parameters F) (oracle : InitialOracle) : Parameters F :=
  { parameters with oracle }

/-- The number of rounds. -/
def roundCount (parameters : Parameters F) : Nat := parameters.rounds.length

/-- The exponents of all rounds. -/
def localization (parameters : Parameters F) : List Nat :=
  parameters.rounds.map Round.exponent

/-- The domain of the first word. -/
def initialDomain (parameters : Parameters F) : Coset F :=
  match parameters.rounds with
  | [] => parameters.finalDomain
  | round :: _ => round.domain

/-- The domains of all words, the last one included. -/
def domains (parameters : Parameters F) : List (Coset F) :=
  parameters.rounds.map Round.domain ++ [parameters.finalDomain]

/-- The number of entries of the first word. -/
def codewordLength (parameters : Parameters F) : Nat := parameters.initialDomain.size

/-- The number of points that the first round joins into one. -/
def initialCosetSize (parameters : Parameters F) : Nat :=
  match parameters.rounds with
  | [] => 1
  | round :: _ => round.cosetSize

/-- The number of coefficients that the final polynomial may have. -/
def finalDegreeBound (parameters : Parameters F) : Nat :=
  parameters.degreeBound >>> total id parameters.localization

/-- The leaf of a round that holds what a position of the first word becomes. -/
def leafOf (parameters : Parameters F) (round position : Nat) : Nat :=
  position >>> total id (parameters.localization.take (round + 1))

/-- The same for a round that must exist. -/
def leafOf? (parameters : Parameters F) (round position : Nat) : Except Fault Nat :=
  if round < parameters.roundCount then .ok (parameters.leafOf round position)
  else .error .outOfRange

/-- The first point of a leaf of a round that must exist. -/
def cosetBase? (parameters : Parameters F) (round leaf : Nat) : Except Fault F :=
  match parameters.rounds[round]? with
  | some stage => .ok (stage.cosetBase leaf)
  | none => .error .outOfRange

/-- The distinct leaves of a round that hold the given positions, in increasing
order. -/
def leavesOf (parameters : Parameters F) (round : Nat) (positions : List Nat) : List Nat :=
  sortedDistinct (positions.map (parameters.leafOf round))

end Parameters

/-- The value at `point` of the polynomial whose values on a subgroup are given
in bit-reversed order. -/
def foldCoset? (subgroup : Coset F) (values : Array F) (point : F) : Except DomainError F := do
  let natural ← (bitReversed? values).mapError .fault
  let coefficients ← subgroup.interpolate? natural
  return FiniteField.horner coefficients point

/-- The blocks of `size` neighbours of a word. A last block may be shorter. -/
def blocksOf (size : Nat) (codeword : Array F) : Array (Array F) :=
  Array.ofFn fun leaf : Fin ((codeword.size + size - 1) / size) =>
    codeword.extract (leaf * size) ((leaf + 1) * size)

namespace Round

/-- The leaves of a word in a round. -/
def blocks (round : Round F) (codeword : Array F) : Array (Array F) :=
  blocksOf round.cosetSize codeword

/-- Folds one leaf by a challenge. -/
def foldLeaf? (round : Round F) (challenge : F) (leaf : Nat) (values : Array F) :
    Except DomainError F :=
  foldCoset? round.subgroup values (challenge * (round.cosetBase leaf)⁻¹)

/-- Folds a word by a challenge, leaf by leaf. -/
def foldWord? (round : Round F) (codeword : Array F) (challenge : F) :
    Except DomainError (Array F) :=
  ((round.blocks codeword).mapIdx (round.foldLeaf? challenge)).mapM id

end Round
end Fri
end OracleProofs

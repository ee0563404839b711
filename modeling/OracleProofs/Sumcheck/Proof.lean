/-
# Challenges, messages and proofs of the sumcheck

Every repetition has its own challenges: one to batch the inner product with the
blinding polynomial, four to combine the quotient and the reduced polynomial,
and one per round of folding. They are drawn round by round for all repetitions
and have to be regrouped by repetition.

The prover answers with two commitments, their openings at the queried leaves and
one proof of the low-degree test per repetition.
-/

import OracleProofs.Fri.Proof
import OracleProofs.Random.Source

namespace OracleProofs
namespace Sumcheck

/-- The coefficients with which a quotient and a reduced polynomial, and the two
multiplied by powers of the variable, enter one codeword. -/
structure Combination (F : Type) where
  quotient : F
  shiftedQuotient : F
  reduced : F
  shiftedReduced : F
  deriving DecidableEq

namespace Combination

variable {F : Type}

/-- The four coefficients in order. -/
def toArray (combination : Combination F) : Array F :=
  #[combination.quotient, combination.shiftedQuotient, combination.reduced,
    combination.shiftedReduced]

/-- Reads four coefficients in order. -/
def ofArray? : Array F → Option (Combination F)
  | #[a0, a1, a2, a3] => some ⟨a0, a1, a2, a3⟩
  | _ => none

/-- Four random coefficients. -/
def draw [Drawable F] {S : Type} [RandomSource S] (source : S) :
    Option (Combination F × S) := do
  let (quotient, source) ← Drawable.draw source
  let (shiftedQuotient, source) ← Drawable.draw source
  let (reduced, source) ← Drawable.draw source
  let (shiftedReduced, source) ← Drawable.draw source
  return (⟨quotient, shiftedQuotient, reduced, shiftedReduced⟩, source)

end Combination

/-- The challenges of one repetition. -/
structure RepetitionChallenges (F : Type) where
  batching : F
  combination : Combination F
  /-- One challenge per round of the low-degree test. -/
  folding : List F
  deriving DecidableEq

/-- The challenges of all repetitions. -/
abbrev Challenges (F : Type) := List (RepetitionChallenges F)

/-- Regroups challenges that were drawn round by round. A round with too few
challenges contributes none to the later repetitions. -/
def Challenges.ofRounds {F : Type} (batching : List F) (combination : List (Combination F))
    (folding : List (List F)) : Challenges F :=
  (batching.zip combination).mapIdx fun repetition (batching, combination) =>
    { batching, combination, folding := folding.filterMap fun round => round[repetition]? }

/-- What the prover sends before any challenge: the commitment to the secret
words and the sum of the blinding polynomial over the summation domain. -/
structure FirstMessage (F : Type) where
  secretRoot : Merkle.Root
  blindingSum : F

/-- The openings of the secret words and of the quotients, and one proof of the
low-degree test per repetition. -/
structure Proof (F : Type) where
  firstMessage : FirstMessage F
  quotientRoot : Merkle.Root
  secretOpenings : Merkle.Batch F
  quotientOpenings : Merkle.Batch F
  friProofs : List (Fri.Proof F)

namespace Proof

variable {F : Type} [FiniteField F]

/-- The number of digests. -/
def digestCount (proof : Proof F) : Nat :=
  2 + proof.secretOpenings.pathLength + proof.quotientOpenings.pathLength +
    total Fri.Proof.digestCount proof.friProofs

/-- The number of field elements. -/
def elementCount (proof : Proof F) : Nat :=
  1 + proof.secretOpenings.elementCount + proof.quotientOpenings.elementCount +
    total Fri.Proof.elementCount proof.friProofs

end Proof
end Sumcheck
end OracleProofs

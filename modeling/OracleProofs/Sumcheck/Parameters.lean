/-
# Parameters of the sumcheck

The statement is that `Σ pᵢ(a) * sᵢ(a)` over all points `a` of a summation
domain `H` and all pairs of a public polynomial `pᵢ` and a secret polynomial
`sᵢ` has a given value. The argument works with words over a larger codeword
domain and with polynomials below a degree bound `D`, and is repeated with
independent challenges. The low-degree test it ends with has a virtual first
word, because the verifier computes that word from openings of its own.
-/

import OracleProofs.Fri.Parameters
import OracleProofs.Error

namespace OracleProofs
namespace Sumcheck

/-- The summation domain, the low-degree test and the number of repetitions. -/
structure Parameters (F : Type) [FiniteField F] where
  summation : Coset F
  fri : Fri.Parameters F
  repetitions : Nat
  /-- The inverse of the number of points of the summation domain. -/
  sizeInverse : F

namespace Parameters

variable {F : Type} [FiniteField F]

/-- Parameters for two multiplicative domains. The summation domain must be
smaller than the degree bound, since the remainder of a sum has degree `|H| - 1`. -/
def new? (summationDomain codewordDomain : EvaluationDomain F) (degreeBound : Nat)
    (localization : List Nat) (repetitions : Nat) : Except SumcheckError (Parameters F) := do
  let some summation := summationDomain.asCoset? | .error (.fri .additiveDomain)
  if repetitions = 0 then .error .noRepetitions
  if degreeBound ≤ summation.size then
    .error (.summationDomainTooLarge summation.size degreeBound)
  let some sizeInverse := FiniteField.inverse? (FiniteField.ofNat summation.size)
    | .error (.summationSizeNotInvertible summation.size)
  let fri ← (Fri.Parameters.new? codewordDomain degreeBound localization).mapError .fri
  return { summation, fri := fri.withOracle .virtual, repetitions, sizeInverse }

/-- The domain of all words. -/
def codewordDomain (parameters : Parameters F) : Coset F := parameters.fri.initialDomain

/-- The bound on the degrees of the products and of the blinding polynomial. -/
def degreeBound (parameters : Parameters F) : Nat := parameters.fri.degreeBound

/-- The number of entries of each word. -/
def codewordLength (parameters : Parameters F) : Nat := parameters.fri.codewordLength

/-- The number of neighbours in a word that are opened together. -/
def cosetSize (parameters : Parameters F) : Nat := parameters.fri.initialCosetSize

/-- The depth of the trees over all words. -/
def treeDepth (parameters : Parameters F) : Nat :=
  match parameters.fri.rounds with
  | [] => parameters.fri.finalDomain.dimension
  | round :: _ => round.treeDepth

/-- The polynomial that vanishes exactly on the summation domain. -/
def vanishing (parameters : Parameters F) : VanishingPolynomial F :=
  parameters.summation.vanishing

/-- The word of a polynomial: its values on the codeword domain in bit-reversed
order. -/
def codeword (parameters : Parameters F) (p : DensePoly F) : Array F :=
  let domain := parameters.codewordDomain
  reverseOrder domain.dimension (domain.evaluateAll p.coefficients)

/-- The point of the codeword domain at a position of a word. -/
def point (parameters : Parameters F) (position : Nat) : F :=
  let domain := parameters.codewordDomain
  domain.element (reverseBits domain.dimension position)

end Parameters
end Sumcheck
end OracleProofs

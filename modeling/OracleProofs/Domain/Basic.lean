/-
# Evaluation domains

An evaluation domain is a coset of a two-adic subgroup or an affine subspace of
a binary field. Both have a power of two as their size, list their points by
index, transform words in both directions and have a sparse polynomial that
vanishes exactly on them.
-/

import OracleProofs.Domain.Coset
import OracleProofs.Domain.Subspace

namespace OracleProofs

/-- A coset or an affine subspace. -/
inductive EvaluationDomain (F : Type) [FiniteField F] where
  | coset (coset : Coset F)
  | subspace (space : AffineSubspace F)

namespace EvaluationDomain

variable {F : Type} [FiniteField F]

/-- The number of points. -/
def size : EvaluationDomain F → Nat
  | .coset c => c.size
  | .subspace s => s.size

/-- The base-two logarithm of the number of points. -/
def dimension : EvaluationDomain F → Nat
  | .coset c => c.dimension
  | .subspace s => s.dimension

/-- The factor or the summand that moves a group to the domain. -/
def shift : EvaluationDomain F → F
  | .coset c => c.shift
  | .subspace s => s.shift

/-- The point at an index. -/
def element : EvaluationDomain F → Nat → F
  | .coset c => c.element
  | .subspace s => s.element

/-- All points in order. -/
def elements : EvaluationDomain F → Array F
  | .coset c => c.elements
  | .subspace s => s.elements

/-- The polynomial that vanishes exactly on the domain. -/
def vanishing : EvaluationDomain F → VanishingPolynomial F
  | .coset c => c.vanishing
  | .subspace s => s.vanishing

/-- The values at all points of the polynomial with the given coefficients. -/
def evaluateAll : EvaluationDomain F → Array F → Array F
  | .coset c => c.evaluateAll
  | .subspace s => s.evaluateAll

/-- The coefficients, as many as there are points, of the polynomial with the
given values, of which there must be one for each point. -/
def interpolate? : EvaluationDomain F → Array F → Except DomainError (Array F)
  | .coset c => c.interpolate?
  | .subspace s => s.interpolate?

/-- The position that comes at `index` when the points are listed subset by
subset. The points of a subspace are listed in that way already. -/
def regroup? : EvaluationDomain F → (subset index : Nat) → Except Fault Nat
  | .coset c, subset, index => c.regroup? subset index
  | .subspace s, subset, index =>
      if subset ≤ s.dimension then .ok index else .error .outOfRange

/-- The sum of a polynomial over all points. -/
def sum? : EvaluationDomain F → DensePoly F → Except DomainError F
  | .coset c, p => c.sum? p
  | .subspace s, p => .ok (s.sum p)

/-- The coset, if the domain is one. -/
def asCoset? : EvaluationDomain F → Option (Coset F)
  | .coset c => some c
  | .subspace _ => none

end EvaluationDomain
end OracleProofs

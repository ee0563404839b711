/-
# Affine subspaces of binary fields

The points `shift + Σ bᵢ` over the basis vectors picked by the bits of an index.
The construction climbs from the zero space to the span: the polynomial that
vanishes on the span of the first vectors is squared and corrected so that the
next vector becomes a zero as well. The value of the old polynomial at that
vector, its image, must not be zero, or the vector is dependent on the earlier
ones. Transforms go down the same tower, halving the space at each floor.
-/

import OracleProofs.Error
import OracleProofs.Polynomial.Vanishing

namespace OracleProofs

/-- One floor of the tower over the zero space: a basis vector, the polynomial
that vanishes exactly on the span of the vectors below it, and the value of that
polynomial at the vector, which is not zero, with its inverse. -/
structure Floor (F : Type) where
  vector : F
  vanishing : Linearized F
  image : F
  imageInverse : F
  deriving DecidableEq

/-- The floors from the top down, and the polynomial that vanishes on the whole
span. -/
structure Tower (F : Type) where
  floors : List (Floor F)
  vanishing : Linearized F
  deriving DecidableEq

variable {F : Type} [FiniteField F]

namespace Tower

/-- The tower over the zero space. -/
def ground : Tower F := ⟨[], .identity⟩

/-- Adds a vector that is not yet in the span. If `Z` vanishes on the span, then
`Z * (Z - Z b)` vanishes on the span of one vector `b` more. -/
def raise? (tower : Tower F) (vector : F) : Option (Tower F) :=
  let image := tower.vanishing.evaluate vector
  (FiniteField.inverse? image).map fun imageInverse =>
    { floors := ⟨vector, tower.vanishing, image, imageInverse⟩ :: tower.floors
      vanishing := tower.vanishing.square - tower.vanishing.scale image }

/-- Adds vectors in order and names the place of the first one that is in the
span of those before it. -/
def raiseAll? (tower : Tower F) : (place : Nat) → List F → Except DomainError (Tower F)
  | _, [] => .ok tower
  | place, vector :: rest =>
      match tower.raise? vector with
      | some higher => higher.raiseAll? (place + 1) rest
      | none => .error (.dependentBasis place)

/-- The tower of a basis, over a field of characteristic two. -/
def ofBasis? (basis : List F) : Except DomainError (Tower F) :=
  if FiniteField.isBinary F then ground.raiseAll? 0 basis else .error .notBinary

end Tower

/-- The sums of `shift` and the members of the span of `basis`. -/
structure AffineSubspace (F : Type) [FiniteField F] where
  basis : List F
  shift : F
  tower : Tower F
  isTower : Tower.ofBasis? basis = .ok tower

namespace AffineSubspace

/-- The subspace with the given basis, whose vectors must be independent. -/
def ofBasis? (basis : List F) (shift : F) : Except DomainError (AffineSubspace F) :=
  match built : Tower.ofBasis? basis with
  | .ok tower => .ok ⟨basis, shift, tower, built⟩
  | .error error => .error error

/-- The number of basis vectors. -/
def dimension (space : AffineSubspace F) : Nat := space.basis.length

/-- The number of points. -/
def size (space : AffineSubspace F) : Nat := 1 <<< space.dimension

/-- The sum of `start` and the vectors picked by the bits of the index. -/
def pick : (basis : List F) → (start : F) → (index : Nat) → F
  | [], start, _ => start
  | vector :: rest, start, index =>
      pick rest (if index % 2 = 1 then start + vector else start) (index / 2)

/-- The point at an index. Bits beyond the dimension are ignored. -/
def element (space : AffineSubspace F) (index : Nat) : F :=
  pick space.basis space.shift index

/-- All points in order. -/
def elements (space : AffineSubspace F) : Array F :=
  Array.ofFn fun index : Fin space.size => space.element index

/-- The polynomial whose zeros are those of a linearized one, moved by `shift`. -/
def moved (p : Linearized F) (shift : F) : Linearized F :=
  p.withConstant (-p.evaluate shift)

/-- The polynomial that vanishes exactly on the subspace. -/
def vanishing (space : AffineSubspace F) : VanishingPolynomial F :=
  .linearized (moved space.tower.vanishing space.shift)

/-- Cuts or continues by zeros to a given length. -/
def resize (length : Nat) (coefficients : Array F) : Array F :=
  Array.ofFn fun place : Fin length => coefficients.getD place 0

/-- The values on `shift` plus the span of the floors. Dividing by the
polynomial of the floor below gives quotient and remainder; on the lower half of
the space the polynomial has the values of the remainder, on the upper half
those of the remainder plus the image times the quotient. -/
def descend : (floors : List (Floor F)) → (shift : F) → (coefficients : Array F) → Array F
  | [], _, coefficients => #[coefficients.getD 0 0]
  | floor :: below, shift, coefficients =>
      let half := 1 <<< below.length
      let division := (moved floor.vanishing shift).terms.divide coefficients
      let lower := resize half division.remainder
      let upper := Array.zipWith (fun low high => low + floor.image * high)
        lower (resize half division.quotient)
      descend below shift lower ++ descend below (shift + floor.vector) upper

/-- The coefficients of the polynomial with the given values on `shift` plus the
span of the floors. The two halves are interpolated on their own; their
difference over the image is the quotient, the lower one the remainder. -/
def ascend : (floors : List (Floor F)) → (shift : F) → (values : Array F) → Array F
  | [], _, values => #[values.getD 0 0]
  | floor :: below, shift, values =>
      let half := 1 <<< below.length
      let lower := ascend below shift (values.take half)
      let upper := ascend below (shift + floor.vector) (values.drop half)
      let quotient := Array.zipWith (fun high low => (high - low) * floor.imageInverse) upper lower
      let product := resize (2 * half) ((moved floor.vanishing shift).terms.multiply quotient)
      Array.zipWith (· + ·) product (resize (2 * half) lower)

/-- The values at all points of the polynomial with the given coefficients. A
polynomial with more coefficients than points is first reduced, which changes
no value. -/
def evaluateAll (space : AffineSubspace F) (coefficients : Array F) : Array F :=
  let reduced :=
    if coefficients.size ≤ space.size then coefficients
    else (space.vanishing.terms.divide coefficients).remainder
  descend space.tower.floors space.shift (resize space.size reduced)

/-- The coefficients, as many as there are points, of the polynomial with the
given values. -/
def interpolate (space : AffineSubspace F) (values : Array F) : Array F :=
  ascend space.tower.floors space.shift values

/-- Interpolation of a word, which must have one value for each point. -/
def interpolate? (space : AffineSubspace F) (values : Array F) :
    Except DomainError (Array F) :=
  if values.size = space.size then .ok (space.interpolate values)
  else .error (.evaluationCount space.size values.size)

/-- The values at all points of a linearized polynomial, faster than through its
coefficients. -/
def evaluateLinearized (space : AffineSubspace F) (p : Linearized F) : Array F :=
  p.valuesOverSpan space.basis space.shift

/-- The sum of a polynomial over all points. -/
def sum (space : AffineSubspace F) (p : DensePoly F) : F :=
  (space.evaluateAll p.coefficients).foldl (· + ·) 0

end AffineSubspace
end OracleProofs

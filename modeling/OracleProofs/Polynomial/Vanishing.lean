/-
# Vanishing polynomials

The polynomial that is zero exactly on an evaluation domain is `x ^ n - c` for a
coset of the subgroup of order `n` and a linearized polynomial for an affine
subspace. Both are sparse. Adding a multiple of it to a polynomial changes no
value on the domain, which is how secret polynomials are masked.

The polynomials of all domains have exponents that are words. One that was given
by its parts need not have such exponents, or may have too many coefficients to
be written out, and is asked through the operations that can refuse.
-/

import OracleProofs.Polynomial.Linearized

namespace OracleProofs

variable {F : Type} [FiniteField F]

/-- A polynomial in the form in which domains hand out the one that vanishes on
them. -/
inductive VanishingPolynomial (F : Type) where
  /-- `x ^ degree - constant`. -/
  | powerMinus (degree : Nat) (constant : F)
  /-- A linearized polynomial. -/
  | linearized (p : Linearized F)
  deriving DecidableEq

/-- A quotient and a remainder. -/
structure Quotient (F : Type) [FiniteField F] where
  quotient : DensePoly F
  remainder : DensePoly F

/-- Removes the trailing zeros on both sides. -/
def Division.toQuotient (division : Division F) : Quotient F :=
  ⟨.ofCoefficients division.quotient, .ofCoefficients division.remainder⟩

namespace VanishingPolynomial

/-- The degree. -/
def degree : VanishingPolynomial F → Nat
  | .powerMinus degree _ => degree
  | .linearized p => p.degree

/-- The value at a point. -/
def evaluate : VanishingPolynomial F → F → F
  | .powerMinus degree constant, point => power point degree - constant
  | .linearized p, point => p.evaluate point

/-- The terms in increasing order. The constant term is left out if it is zero. -/
def terms : VanishingPolynomial F → Terms F
  | .powerMinus degree constant =>
      if constant = 0 then [(degree, 1)] else [(0, -constant), (degree, 1)]
  | .linearized p => p.terms

/-- The same polynomial with all its coefficients written out. -/
def toDense (z : VanishingPolynomial F) : DensePoly F :=
  .ofCoefficients z.terms.toCoefficients

/-- The product with a dense polynomial. -/
def multiply (z : VanishingPolynomial F) (p : DensePoly F) : DensePoly F :=
  .ofCoefficients (z.terms.multiply p.coefficients)

/-- The quotient and the remainder of a dense polynomial. -/
def divide (z : VanishingPolynomial F) (p : DensePoly F) : Quotient F :=
  (z.terms.divide p.coefficients).toQuotient

/-- Adds a multiple of the vanishing polynomial. -/
def mask (z : VanishingPolynomial F) (p multiplier : DensePoly F) : DensePoly F :=
  p + z.multiply multiplier

/-- The degree, if it is a word. -/
def degree? : VanishingPolynomial F → Except Fault Nat
  | .powerMinus degree _ => .ok degree
  | .linearized p => p.degree?

/-- The terms, if their exponents are words. -/
def terms? : VanishingPolynomial F → Except Fault (Terms F)
  | .powerMinus degree constant => .ok (terms (.powerMinus degree constant))
  | .linearized p => p.terms?

/-- Whether the leading coefficient is one. -/
def isMonic? (z : VanishingPolynomial F) : Except Fault Bool :=
  z.terms?.map Terms.isMonic

/-- The same polynomial written out, if that is possible. -/
def toDense? (z : VanishingPolynomial F) : Except Fault (DensePoly F) := do
  return .ofCoefficients (← (← z.terms?).toCoefficients?)

/-- The product with a dense polynomial, if it can be written out. -/
def multiply? (z : VanishingPolynomial F) (p : DensePoly F) : Except Fault (DensePoly F) := do
  return .ofCoefficients (← (← z.terms?).multiply? p.coefficients)

/-- The quotient and the remainder of a dense polynomial, unless the divisor is
zero. -/
def divide? (z : VanishingPolynomial F) (p : DensePoly F) : Except Fault (Quotient F) := do
  return (← (← z.terms?).divide? p.coefficients).toQuotient

/-- Adds a multiple of the vanishing polynomial, if it can be written out. -/
def mask? (z : VanishingPolynomial F) (p multiplier : DensePoly F) :
    Except Fault (DensePoly F) := do
  return p + (← z.multiply? multiplier)

end VanishingPolynomial

/-- Division by a linearized polynomial, which must not be zero. -/
def Linearized.divide? (p : Linearized F) (q : DensePoly F) : Except Fault (Quotient F) :=
  (VanishingPolynomial.linearized p).divide? q

end OracleProofs

/-
# Sparse polynomials

The polynomials that vanish on an evaluation domain have few terms, so products
and quotients by them are taken term by term. A sparse polynomial lists its
terms in increasing order of their exponents; the last one is the leading term.
Dividing by the empty list leaves everything as remainder, which keeps the law
`dividend = divisor * quotient + remainder`, and `divide?` refuses it. A few
terms can have an enormous degree, so `toCoefficients?` and `multiply?` refuse to
write out more coefficients than can be held.
-/

import OracleProofs.Binary.Word
import OracleProofs.Field.Basic

namespace OracleProofs

/-- Exponents with their coefficients, in increasing order. -/
abbrev Terms (F : Type) := List (Nat × F)

variable {F : Type} [FiniteField F]

/-- Adds `change` to the coefficient of `x ^ exponent`. -/
def addTerm (coefficients : Array F) (exponent : Nat) (change : F) : Array F :=
  coefficients.modify exponent (· + change)

/-- A quotient and the remainder that goes with it, as plain coefficients. -/
structure Division (F : Type) where
  quotient : Array F
  remainder : Array F

namespace Terms

/-- The exponent of the leading term, zero if there is none. -/
def degree (terms : Terms F) : Nat :=
  (terms.getLast?.map Prod.fst).getD 0

/-- Adds `factor * x ^ shift` times all terms to the coefficients. -/
def accumulate (terms : Terms F) (shift : Nat) (factor : F) (coefficients : Array F) : Array F :=
  terms.foldl (fun sum (exponent, coefficient) =>
    addTerm sum (exponent + shift) (factor * coefficient)) coefficients

/-- The coefficients of all terms up to the leading one. -/
def toCoefficients (terms : Terms F) : Array F :=
  terms.accumulate 0 1 (Array.replicate (terms.degree + 1) 0)

/-- The same, if all these coefficients can be held. -/
def toCoefficients? (terms : Terms F) : Except Fault (Array F) :=
  (checkRoom (terms.degree + 1) (FiniteField.width F)).map fun _ => terms.toCoefficients

/-- The number of entries of a product with `size` coefficients: as many as the
two degrees require, and none if either factor is empty. -/
def productSize (terms : Terms F) (size : Nat) : Nat :=
  if terms.isEmpty || size = 0 then 0 else size + terms.degree

/-- The product with a dense polynomial. -/
def multiply (terms : Terms F) (dense : Array F) : Array F :=
  dense.size.fold (fun shift inside sum => terms.accumulate shift dense[shift] sum)
    (Array.replicate (terms.productSize dense.size) 0)

/-- The same, if all coefficients of the product can be held. -/
def multiply? (terms : Terms F) (dense : Array F) : Except Fault (Array F) :=
  (checkRoom (terms.productSize dense.size) (FiniteField.width F)).map
    fun _ => terms.multiply dense

/-- Whether the leading coefficient is one. -/
def isMonic (terms : Terms F) : Bool :=
  terms.getLast?.any fun (_, coefficient) => coefficient = 1

/-- One step of long division: clears the entry at `place + degree` of the
remainder and records the factor that was needed. -/
def divideStep (terms : Terms F) (degree : Nat) (leadingInverse : F) (place : Nat)
    (state : Division F) : Division F :=
  let factor := state.remainder.getD (place + degree) 0 * leadingInverse
  if factor = 0 then state
  else
    ⟨state.quotient.setIfInBounds place factor,
      terms.accumulate place (-factor) state.remainder⟩

/-- Runs the steps of long division from `count - 1` down to zero. -/
def divideSteps (terms : Terms F) (degree : Nat) (leadingInverse : F) :
    (count : Nat) → Division F → Division F
  | 0, state => state
  | place + 1, state =>
      divideSteps terms degree leadingInverse place
        (divideStep terms degree leadingInverse place state)

/-- The quotient and the remainder of long division. A dividend that is too
short is its own remainder. -/
def divide (terms : Terms F) (dividend : Array F) : Division F :=
  match terms.getLast? with
  | none => ⟨#[], dividend⟩
  | some (degree, leading) =>
      if dividend.size ≤ degree then ⟨#[], dividend⟩
      else
        let count := dividend.size - degree
        let state := terms.divideSteps degree leading⁻¹ count
          ⟨Array.replicate count 0, dividend⟩
        ⟨state.quotient, state.remainder.take degree⟩

/-- Long division by a polynomial that has a term. -/
def divide? (terms : Terms F) (dividend : Array F) : Except Fault (Division F) :=
  if terms.isEmpty then .error .zeroDivisor else .ok (terms.divide dividend)

end Terms
end OracleProofs

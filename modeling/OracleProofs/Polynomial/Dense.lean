/-
# Dense polynomials

A polynomial is the array of its coefficients, constant term first, whose last
entry is not zero. With that invariant two polynomials are equal exactly if
their arrays are, the zero polynomial is the empty array, and the degree can be
read off the length. Every operation ends by removing trailing zeros.
-/

import OracleProofs.Field.Basic

namespace OracleProofs

variable {F : Type} [FiniteField F]

/-- Removes the zeros at the end of an array of coefficients. -/
def trimZeros (coefficients : Array F) : Array F :=
  coefficients.popWhile fun coefficient => coefficient = 0

/-- What is left of an array does not end with what was removed from its end. -/
theorem of_back?_popWhile {α : Type} {test : α → Bool} {values : Array α} {last : α}
    (ends : (values.popWhile test).back? = some last) : test last = false := by
  fun_induction Array.popWhile test values with
  | case1 values nonempty removed shorter => exact shorter ends
  | case2 values nonempty kept =>
      rw [Array.back?_eq_getElem?,
        Array.getElem?_eq_getElem (Nat.sub_lt nonempty Nat.zero_lt_one)] at ends
      cases ends
      simpa using kept
  | case3 values empty =>
      rw [Array.back?_eq_getElem?, Array.getElem?_eq_none (by omega)] at ends
      cases ends

/-- A trimmed array does not end with zero. -/
theorem back?_trimZeros (coefficients : Array F) :
    (trimZeros coefficients).back? ≠ some 0 := by
  intro ends
  simpa using of_back?_popWhile ends

/-- A polynomial in one variable. -/
structure DensePoly (F : Type) [FiniteField F] where
  /-- The coefficients, constant term first. -/
  coefficients : Array F
  /-- The leading coefficient is not zero. -/
  trimmed : coefficients.back? ≠ some 0

namespace DensePoly

/-- Polynomials with the same coefficients are equal. -/
@[ext] theorem ext {p q : DensePoly F} (same : p.coefficients = q.coefficients) : p = q := by
  cases p
  cases q
  cases same
  rfl

instance : DecidableEq (DensePoly F) := fun p q =>
  if same : p.coefficients = q.coefficients then isTrue (ext same)
  else isFalse fun equal => same (equal ▸ rfl)

/-- The polynomial with the given coefficients, constant term first. -/
def ofCoefficients (coefficients : Array F) : DensePoly F :=
  ⟨trimZeros coefficients, back?_trimZeros coefficients⟩

instance : Zero (DensePoly F) := ⟨⟨#[], by simp⟩⟩

/-- The number of coefficients up to the leading one. -/
def length (p : DensePoly F) : Nat := p.coefficients.size

/-- The coefficient of `x ^ exponent`. -/
def coefficient (p : DensePoly F) (exponent : Nat) : F :=
  p.coefficients.getD exponent 0

/-- Whether all coefficients vanish. -/
def isZero (p : DensePoly F) : Bool := p.coefficients.isEmpty

/-- The exponent of the leading term. The zero polynomial counts as a constant. -/
def degree (p : DensePoly F) : Nat := p.length - 1

/-- The value at a point. -/
def evaluate (p : DensePoly F) (point : F) : F :=
  FiniteField.horner p.coefficients point

/-- Joins two polynomials coefficient by coefficient. -/
def combine (join : F → F → F) (p q : DensePoly F) : DensePoly F :=
  ofCoefficients <| Array.ofFn fun exponent : Fin (max p.length q.length) =>
    join (p.coefficient exponent) (q.coefficient exponent)

instance : Add (DensePoly F) := ⟨combine (· + ·)⟩

instance : Sub (DensePoly F) := ⟨combine (· - ·)⟩

/-- The product with a field element. -/
def scale (p : DensePoly F) (factor : F) : DensePoly F :=
  ofCoefficients (p.coefficients.map (· * factor))

/-- The coefficient of `x ^ exponent` in a product: the sum over all ways to
split the exponent between two coefficients that are present. -/
def productCoefficient (p q : DensePoly F) (exponent : Nat) : F :=
  let first := exponent + 1 - q.length
  FiniteField.sumRange (min p.length (exponent + 1) - first) fun step =>
    p.coefficient (first + step) * q.coefficient (exponent - (first + step))

/-- The product, coefficient by coefficient. -/
def schoolbookMul (p q : DensePoly F) : DensePoly F :=
  ofCoefficients <| Array.ofFn fun exponent : Fin (p.length + q.length - 1) =>
    productCoefficient p q exponent

end DensePoly
end OracleProofs

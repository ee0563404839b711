/-
# Linearized polynomials

A linearized polynomial has, besides its constant term, only terms whose
exponents are powers of two: `constant + a 0 * x + a 1 * x² + a 2 * x⁴ + …`. In
characteristic two such a polynomial without constant term is additive, so it
is known on a subspace as soon as it is known on a basis, and its square is
again linearized. The polynomials that vanish on subspaces are of this kind.

Values, sums and squares are taken on the coefficients and need no exponent.
What does need one is asked of `degree?`, `terms?`, `expand?` and `multiply?`,
which refuse a polynomial whose exponents have outgrown machine words.
-/

import OracleProofs.Polynomial.Dense
import OracleProofs.Polynomial.Sparse

namespace OracleProofs

variable {F : Type} [FiniteField F]

/-- Entry `i` of `linear` is the coefficient of `x ^ 2 ^ i`. -/
structure Linearized (F : Type) where
  constant : F
  linear : List F
  deriving DecidableEq

namespace Linearized

/-- Removes the zeros at the end of a list. -/
def trim : List F → List F
  | [] => []
  | first :: rest =>
      match trim rest with
      | [] => if first = 0 then [] else [first]
      | kept => first :: kept

/-- The polynomial with the given coefficients. -/
def ofParts (constant : F) (linear : List F) : Linearized F :=
  ⟨constant, trim linear⟩

/-- The polynomial whose coefficients are listed, constant term first. -/
def ofCoefficients : List F → Linearized F
  | [] => ofParts 0 []
  | constant :: linear => ofParts constant linear

/-- The polynomial `x`. -/
def identity : Linearized F := ofParts 0 [1]

/-- The same polynomial with another constant term. -/
def withConstant (p : Linearized F) (constant : F) : Linearized F :=
  { p with constant }

/-- The degree. Constants have degree zero. -/
def degree (p : Linearized F) : Nat :=
  match p.linear.length with
  | 0 => 0
  | count + 1 => 1 <<< count

/-- Whether all coefficients vanish. -/
def isZero (p : Linearized F) : Bool :=
  p.constant = 0 && p.linear.isEmpty

/-- The value of `a 0 * x + a 1 * x² + a 2 * x⁴ + …`, one squaring per term. -/
def evaluateLinear : List F → F → F
  | [], _ => 0
  | coefficient :: rest, point => coefficient * point + evaluateLinear rest (point * point)

/-- The value at a point. -/
def evaluate (p : Linearized F) (point : F) : F :=
  p.constant + evaluateLinear p.linear point

/-- The square, by the rules of characteristic two: every exponent doubles and
mixed terms cancel. -/
def square (p : Linearized F) : Linearized F :=
  ⟨p.constant * p.constant,
    match p.linear with
    | [] => []
    | linear => 0 :: linear.map fun coefficient => coefficient * coefficient⟩

/-- The product with a field element. -/
def scale (p : Linearized F) (factor : F) : Linearized F :=
  ofParts (p.constant * factor) (p.linear.map (· * factor))

/-- Joins two lists of coefficients, the shorter one continued by zeros. -/
def combineLinear (join : F → F → F) : List F → List F → List F
  | [], right => right.map (join 0)
  | left, [] => left.map (join · 0)
  | first :: left, second :: right => join first second :: combineLinear join left right

/-- Joins two polynomials coefficient by coefficient. -/
def combine (join : F → F → F) (p q : Linearized F) : Linearized F :=
  ofParts (join p.constant q.constant) (combineLinear join p.linear q.linear)

instance : Add (Linearized F) := ⟨combine (· + ·)⟩

instance : Sub (Linearized F) := ⟨combine (· - ·)⟩

/-- The terms with nonzero coefficients, the first of which has the given
exponent. -/
def linearTerms : (exponent : Nat) → List F → Terms F
  | _, [] => []
  | exponent, coefficient :: rest =>
      let later := linearTerms (2 * exponent) rest
      if coefficient = 0 then later else (exponent, coefficient) :: later

/-- The terms with nonzero coefficients in increasing order. -/
def terms (p : Linearized F) : Terms F :=
  if p.constant = 0 then linearTerms 1 p.linear
  else (0, p.constant) :: linearTerms 1 p.linear

/-- The same polynomial with all its coefficients written out. -/
def expand (p : Linearized F) : DensePoly F :=
  .ofCoefficients p.terms.toCoefficients

/-- The product with a dense polynomial. -/
def multiply (p : Linearized F) (q : DensePoly F) : DensePoly F :=
  .ofCoefficients (p.terms.multiply q.coefficients)

/-- Refuses a polynomial with an exponent that is not a word. -/
def checkExponents (p : Linearized F) : Except Fault Unit :=
  if p.linear.length ≤ wordBits then .ok () else .error .overflow

/-- The degree, if it is a word. -/
def degree? (p : Linearized F) : Except Fault Nat :=
  p.checkExponents.map fun _ => p.degree

/-- The terms, if their exponents are words. -/
def terms? (p : Linearized F) : Except Fault (Terms F) :=
  p.checkExponents.map fun _ => p.terms

/-- The same polynomial written out, if that is possible. -/
def expand? (p : Linearized F) : Except Fault (DensePoly F) := do
  return .ofCoefficients (← (← p.terms?).toCoefficients?)

/-- The product with a dense polynomial, if it can be written out. -/
def multiply? (p : Linearized F) (q : DensePoly F) : Except Fault (DensePoly F) := do
  return .ofCoefficients (← (← p.terms?).multiply? q.coefficients)

/-- The values on `shift + span basis`. Each basis vector appends a shifted
copy of what is already there, because its contribution does not depend on the others. -/
def valuesOverSpan (p : Linearized F) (basis : List F) (shift : F) : Array F :=
  basis.foldl (fun values vector =>
    let change := p.evaluate vector - p.constant
    values ++ values.map (· + change)) #[p.evaluate shift]

end Linearized
end OracleProofs

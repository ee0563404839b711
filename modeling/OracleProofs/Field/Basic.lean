/-
# Finite fields with a two-adic subgroup

The protocols compute in one finite field, and all they need of it is collected
in `FiniteField`: the operations, a root of unity whose order is a power of two,
and the bytes by which an element enters a hash. The class holds data only; its
laws are theorems about the instances. Inversion is total, with the usual
convention that zero is its own inverse, and `inverse?` refuses zero.

Powers and multiples are taken by squaring and doubling along the bits of the
exponent. The recursion counts bits, so it is structural and needs no more
multiplications than twice their number.
-/

namespace OracleProofs

section Power

variable {α : Type}

/-- The power for an exponent of at most `bits` bits. -/
def powerOfBits [One α] [Mul α] : (bits : Nat) → α → Nat → α
  | 0, _, _ => 1
  | bits + 1, base, exponent =>
      let rest := powerOfBits bits (base * base) (exponent / 2)
      if exponent % 2 = 0 then rest else base * rest

/-- The `exponent`-fold product of `base`, where the empty product is one. -/
def power [One α] [Mul α] (base : α) (exponent : Nat) : α :=
  powerOfBits (exponent.log2 + 1) base exponent

/-- The multiple for a count of at most `bits` bits. -/
def multipleOfBits [Zero α] [Add α] : (bits : Nat) → Nat → α → α
  | 0, _, _ => 0
  | bits + 1, count, term =>
      let rest := multipleOfBits bits (count / 2) (term + term)
      if count % 2 = 0 then rest else term + rest

/-- The `count`-fold sum of `term`, where the empty sum is zero. -/
def multiple [Zero α] [Add α] (count : Nat) (term : α) : α :=
  multipleOfBits (count.log2 + 1) count term

/-- `start, start * ratio, start * ratio², …`, `count` terms in all. Each term is
one multiplication away from the previous one. -/
def geometric [Mul α] (ratio : α) (count : Nat) (start : α) : Array α :=
  (count.fold (fun _ _ (terms, term) => (terms.push term, term * ratio))
    ((Array.mkEmpty count : Array α), start)).1

end Power

/-- The data of a finite field. -/
class FiniteField (F : Type) extends Zero F, One F, Add F, Sub F, Neg F, Mul F, Inv F where
  /-- Elements have one representation each, so equality is decidable. -/
  decideEq : DecidableEq F
  /-- The group of units has a subgroup of order `2 ^ twoAdicity`. -/
  twoAdicity : Nat
  /-- A generator of that subgroup. -/
  twoAdicRoot : F
  /-- The number of bits that hold any element. -/
  bitLength : Nat
  /-- The bytes of an element, equally many for every element. -/
  encode : F → List UInt8
  /-- The text of an element. -/
  describe : F → String

namespace FiniteField

variable {F : Type} [FiniteField F]

instance : DecidableEq F := decideEq

instance : Inhabited F := ⟨0⟩

/-- The number of bytes of an element. -/
def width (F : Type) [FiniteField F] : Nat := (encode (0 : F)).length

/-- The image of a natural number. -/
def ofNat (number : Nat) : F := multiple number 1

/-- The multiplicative inverse of an element other than zero. -/
def inverse? (element : F) : Option F :=
  if element = 0 then none else some element⁻¹

/-- Whether the field has characteristic two. -/
def isBinary (F : Type) [FiniteField F] : Bool := (1 + 1 : F) = 0

/-- The generator of the subgroup of order `2 ^ dimension`, for a dimension up
to the two-adicity. Squaring the full root halves its order, so the generators
of all dimensions form one chain. -/
def rootOfUnity (F : Type) [FiniteField F] (dimension : Nat) : F :=
  power twoAdicRoot (1 <<< (twoAdicity F - dimension))

/-- The value at `point` of the polynomial with the given coefficients, constant
term first. -/
def horner (coefficients : Array F) (point : F) : F :=
  coefficients.foldr (fun coefficient value => value * point + coefficient) 0

/-- `term 0 + term 1 + … + term (count - 1)`. -/
def sumRange (count : Nat) (term : Nat → F) : F :=
  count.fold (fun place _ total => total + term place) 0

end FiniteField
end OracleProofs

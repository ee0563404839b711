/-
# Prime fields

The integers modulo a prime, represented by their least remainders. A field is
given by its prime, a generator of its units, the number of factors two in
`p - 1` and the number of 64-bit words that hold an element; everything else
follows from these. Three primes are in use.
-/

import OracleProofs.Field.Basic

namespace OracleProofs

/-- What has to be known of a prime to compute modulo it. -/
class TwoAdicPrime (p : Nat) where
  /-- Zero and one are different. -/
  one_lt : 1 < p
  /-- An element whose powers are all the units. -/
  generator : Nat
  /-- The exponent of two in `p - 1`. -/
  twoAdicity : Nat
  /-- The number of 64-bit words of an element. -/
  words : Nat
  /-- The inverse of `2 ^ (64 * words)`. -/
  wordsInverse : Nat
  /-- It takes the shift by all words back. -/
  wordsInverse_shift : (wordsInverse <<< (64 * words)) % p = 1

/-- An integer modulo `p`, as its least remainder. -/
structure Residue (p : Nat) where
  value : Fin p
  deriving DecidableEq

/-- The least significant byte first, `count` bytes in all. -/
def littleEndian : (count number : Nat) → List UInt8
  | 0, _ => []
  | count + 1, number => UInt8.ofNat number :: littleEndian count (number / 256)

namespace Residue

variable {p : Nat}

/-- The number of bits of the prime. -/
def bitLength (p : Nat) : Nat := p.log2 + 1

variable [TwoAdicPrime p]

/-- The residue class of a natural number. -/
def ofNat (number : Nat) : Residue p :=
  ⟨number % p, Nat.mod_lt _ (Nat.lt_trans Nat.zero_lt_one TwoAdicPrime.one_lt)⟩

/-- The residue class of an integer. -/
def ofInt (number : Int) : Residue p := ofNat (number % p).toNat

instance : One (Residue p) := ⟨ofNat 1⟩

instance : Mul (Residue p) := ⟨fun a b => ⟨a.value * b.value⟩⟩

/-- `a * b + c * d`, reduced once. -/
def sumOfProducts (a b c d : Residue p) : Residue p :=
  ofNat (a.value.val * b.value.val + c.value.val * d.value.val)

/-- Raises to the power `p - 2`, which undoes a factor because the units have
order `p - 1`. Zero stays zero. -/
def inv (a : Residue p) : Residue p := power a (p - 2)

/-- The field of integers modulo `p`. -/
@[reducible] def field (p : Nat) [TwoAdicPrime p] : FiniteField (Residue p) where
  zero := ofNat 0
  one := ofNat 1
  add a b := ⟨a.value + b.value⟩
  sub a b := ⟨a.value - b.value⟩
  neg a := ⟨-a.value⟩
  mul a b := ⟨a.value * b.value⟩
  inv := inv
  decideEq := inferInstance
  twoAdicity := TwoAdicPrime.twoAdicity p
  twoAdicRoot :=
    power (ofNat (TwoAdicPrime.generator p)) ((p - 1) >>> TwoAdicPrime.twoAdicity p)
  bitLength := bitLength p
  encode a := littleEndian (8 * TwoAdicPrime.words p) a.value.val
  describe a := toString a.value.val

end Residue

/-- `2 ^ 64 - 2 ^ 32 + 1`. -/
abbrev goldilocksPrime : Nat := 18446744069414584321

instance : TwoAdicPrime goldilocksPrime where
  one_lt := by decide
  generator := 7
  twoAdicity := 32
  words := 1
  wordsInverse := 18446744065119617025
  wordsInverse_shift := by decide

/-- The integers modulo `2 ^ 64 - 2 ^ 32 + 1`. -/
abbrev Goldilocks : Type := Residue goldilocksPrime

instance : FiniteField Goldilocks := Residue.field goldilocksPrime

/-- `15 * 2 ^ 27 + 1`. -/
abbrev babyBearPrime : Nat := 2013265921

instance : TwoAdicPrime babyBearPrime where
  one_lt := by decide
  generator := 31
  twoAdicity := 27
  words := 1
  wordsInverse := 1570897921
  wordsInverse_shift := by decide

/-- The integers modulo `15 * 2 ^ 27 + 1`. -/
abbrev BabyBear : Type := Residue babyBearPrime

instance : FiniteField BabyBear := Residue.field babyBearPrime

/-- The order of the scalar group of the curve BLS12-381. -/
abbrev blsScalarPrime : Nat :=
  52435875175126190479447740508185965837690552500527637822603658699938581184513

instance : TwoAdicPrime blsScalarPrime where
  one_lt := by decide
  generator := 7
  twoAdicity := 32
  words := 4
  wordsInverse :=
    12549076656233958353659347336803947287922716146853412054870763148006372261952
  wordsInverse_shift := by decide

/-- The scalar field of the curve BLS12-381. -/
abbrev BlsScalar : Type := Residue blsScalarPrime

instance : FiniteField BlsScalar := Residue.field blsScalarPrime

end OracleProofs

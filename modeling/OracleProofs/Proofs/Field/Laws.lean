/-
# The laws of a field

`FiniteField` holds data only. Everything that is proved about the protocols is
proved from the laws collected here, so it holds for every field that obeys
them and never looks at how an element is represented. Besides the field axioms
there are two laws of the two-adic root, which say that its order is exactly
`2 ^ twoAdicity`, and two of the encoding, which say that bytes determine the
element and that all elements have equally many.

A lawful field is an instance of the library's `Field`, and its repeated products
and sums are powers and multiples in the usual sense.
-/

import Mathlib
import OracleProofs.Field.Basic

namespace OracleProofs

/-- The operations obey the field axioms, the two-adic root has the order that
is claimed for it, and the encoding is injective and of constant length. -/
class LawfulField (F : Type) [FiniteField F] : Prop where
  add_assoc (a b c : F) : a + b + c = a + (b + c)
  zero_add (a : F) : 0 + a = a
  add_comm (a b : F) : a + b = b + a
  neg_add_cancel (a : F) : -a + a = 0
  sub_eq_add_neg (a b : F) : a - b = a + -b
  mul_assoc (a b c : F) : a * b * c = a * (b * c)
  one_mul (a : F) : 1 * a = a
  mul_comm (a b : F) : a * b = b * a
  mul_add (a b c : F) : a * (b + c) = a * b + a * c
  zero_ne_one : (0 : F) ≠ 1
  mul_inv_cancel (a : F) : a ≠ 0 → a * a⁻¹ = 1
  inv_zero : (0 : F)⁻¹ = 0
  /-- The order of the root divides `2 ^ twoAdicity`. -/
  power_root : power (FiniteField.twoAdicRoot : F) (2 ^ FiniteField.twoAdicity F) = 1
  /-- It is not smaller. -/
  power_root_ne_one : FiniteField.twoAdicity F ≠ 0 →
    power (FiniteField.twoAdicRoot : F) (2 ^ (FiniteField.twoAdicity F - 1)) ≠ 1
  encode_length (a b : F) : (FiniteField.encode a).length = (FiniteField.encode b).length
  encode_injective : Function.Injective (FiniteField.encode : F → List UInt8)

namespace LawfulField

variable {F : Type} [FiniteField F] [LawfulField F]

private theorem eq_zero_of_add_self {a : F} (h : a + a = a) : a = 0 :=
  calc
    a = 0 + a := (zero_add a).symm
    _ = -a + a + a := by rw [neg_add_cancel]
    _ = -a + (a + a) := add_assoc _ _ _
    _ = 0 := by rw [h, neg_add_cancel]

private theorem mul_zero (a : F) : a * 0 = 0 :=
  eq_zero_of_add_self (by rw [← mul_add, zero_add])

/-- A lawful field is a field, with the operations that it runs with. -/
instance toField : Field F where
  add_assoc := add_assoc
  zero_add := zero_add
  add_zero a := by rw [add_comm, zero_add]
  add_comm := add_comm
  neg_add_cancel := neg_add_cancel
  sub_eq_add_neg := sub_eq_add_neg
  mul_assoc := mul_assoc
  one_mul := one_mul
  mul_one a := by rw [mul_comm, one_mul]
  mul_comm := mul_comm
  left_distrib := mul_add
  right_distrib a b c := by rw [mul_comm, mul_add, mul_comm c, mul_comm c]
  zero_mul a := by rw [mul_comm, mul_zero]
  mul_zero := mul_zero
  exists_pair_ne := ⟨0, 1, zero_ne_one⟩
  mul_inv_cancel := mul_inv_cancel
  inv_zero := inv_zero
  nsmul := nsmulRec
  zsmul := zsmulRec
  nnqsmul := _
  nnqsmul_def := fun _ _ => rfl
  qsmul := _
  qsmul_def := fun _ _ => rfl

end LawfulField

section Power

variable {M N : Type} [One M] [Mul M] [Monoid N]

private theorem powerOfBits_hom (f : M → N) (map_one : f 1 = 1)
    (map_mul : ∀ a b, f (a * b) = f a * f b) (bits : ℕ) (base : M) {exponent : ℕ}
    (fits : exponent < 2 ^ bits) :
    f (powerOfBits bits base exponent) = f base ^ exponent := by
  induction bits generalizing base exponent with
  | zero =>
      have hzero : exponent = 0 := by simpa using fits
      rw [hzero, powerOfBits, map_one, pow_zero]
  | succ bits ih =>
      have hhalf : exponent / 2 < 2 ^ bits := by
        rw [pow_succ] at fits
        omega
      have hrest : f (powerOfBits bits (base * base) (exponent / 2)) =
          f base ^ (2 * (exponent / 2)) := by
        rw [ih (base * base) hhalf, map_mul, ← sq, ← pow_mul]
      rw [powerOfBits]
      by_cases heven : exponent % 2 = 0
      · rw [if_pos heven, hrest]
        congr 1
        omega
      · rw [if_neg heven, map_mul, hrest, ← pow_succ']
        congr 1
        omega

/-- A map that respects one and products carries the power by squaring to the
power of a monoid. -/
theorem power_hom (f : M → N) (map_one : f 1 = 1) (map_mul : ∀ a b, f (a * b) = f a * f b)
    (base : M) (exponent : ℕ) : f (power base exponent) = f base ^ exponent :=
  powerOfBits_hom f map_one map_mul _ base Nat.lt_log2_self

/-- Squaring along the bits of the exponent computes the power. -/
@[simp]
theorem power_eq_pow (base : N) (exponent : ℕ) : power base exponent = base ^ exponent :=
  power_hom id rfl (fun _ _ => rfl) base exponent

end Power

section Multiple

variable {M : Type} [AddMonoid M]

private theorem multipleOfBits_eq_nsmul (bits : ℕ) (term : M) {count : ℕ}
    (fits : count < 2 ^ bits) : multipleOfBits bits count term = count • term := by
  induction bits generalizing term count with
  | zero =>
      have hzero : count = 0 := by simpa using fits
      rw [hzero, multipleOfBits, zero_nsmul]
  | succ bits ih =>
      have hhalf : count / 2 < 2 ^ bits := by
        rw [pow_succ] at fits
        omega
      have hrest : multipleOfBits bits (count / 2) (term + term) = (2 * (count / 2)) • term := by
        rw [ih (term + term) hhalf, ← two_nsmul, ← mul_nsmul]
      rw [multipleOfBits]
      by_cases heven : count % 2 = 0
      · rw [if_pos heven, hrest]
        congr 1
        omega
      · rw [if_neg heven, hrest, ← succ_nsmul']
        congr 1
        omega

/-- Doubling along the bits of the count computes the multiple. -/
@[simp]
theorem multiple_eq_nsmul (count : ℕ) (term : M) : multiple count term = count • term :=
  multipleOfBits_eq_nsmul _ term Nat.lt_log2_self

end Multiple

/-- A running product lists a geometric sequence. -/
theorem geometric_eq_ofFn {M : Type} [Monoid M] (ratio : M) (count : ℕ) (start : M) :
    geometric ratio count start =
      Array.ofFn fun place : Fin count => start * ratio ^ (place : ℕ) := by
  have hfold : count.fold (fun _ _ listed => (listed.1.push listed.2, listed.2 * ratio))
      ((#[] : Array M), start) =
        (Array.ofFn fun place : Fin count => start * ratio ^ (place : ℕ),
          start * ratio ^ count) := by
    induction count with
    | zero => simp
    | succ count ih =>
        simp only [Nat.fold_succ, ih]
        rw [Array.ofFn_succ]
        simp [pow_succ, mul_assoc]
  exact congrArg Prod.fst hfold

end OracleProofs

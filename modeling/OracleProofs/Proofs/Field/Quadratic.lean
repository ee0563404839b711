/-
# The quadratic extension is lawful

Seven is not a square modulo the prime below the extension, since a square has
power one to half of `p - 1` and seven does not. So the norm of an element other
than zero is not zero, and dividing the conjugate by it inverts the element.
-/

import Mathlib
import OracleProofs.Field.Extension
import OracleProofs.Proofs.Field.Prime

namespace OracleProofs
namespace GoldilocksExtension

theorem ext {a b : GoldilocksExtension} (c0 : a.c0 = b.c0) (c1 : a.c1 = b.c1) : a = b := by
  cases a
  cases b
  cases c0
  cases c1
  rfl

theorem sumOfProducts_eq (a b c d : Goldilocks) :
    Residue.sumOfProducts a b c d = a * b + c * d := by
  apply Residue.toZMod_injective
  rw [Residue.sumOfProducts, Residue.toZMod_ofNat, Residue.toZMod_add, Residue.toZMod_mul,
    Residue.toZMod_mul, Nat.cast_add, Nat.cast_mul, Nat.cast_mul]
  rfl

@[simp]
theorem c0_mul (a b : GoldilocksExtension) : (a * b).c0 = a.c0 * b.c0 + radicand * a.c1 * b.c1 :=
  sumOfProducts_eq _ _ _ _

@[simp]
theorem c1_mul (a b : GoldilocksExtension) : (a * b).c1 = a.c0 * b.c1 + a.c1 * b.c0 :=
  sumOfProducts_eq _ _ _ _

@[simp]
theorem c0_add (a b : GoldilocksExtension) : (a + b).c0 = a.c0 + b.c0 := rfl

@[simp]
theorem c1_add (a b : GoldilocksExtension) : (a + b).c1 = a.c1 + b.c1 := rfl

@[simp]
theorem c0_zero : (0 : GoldilocksExtension).c0 = 0 := rfl

@[simp]
theorem c1_zero : (0 : GoldilocksExtension).c1 = 0 := rfl

@[simp]
theorem c0_one : (1 : GoldilocksExtension).c0 = 1 := rfl

@[simp]
theorem c1_one : (1 : GoldilocksExtension).c1 = 0 := rfl

private theorem radicand_power : power radicand ((goldilocksPrime - 1) / 2) ≠ 1 := by
  decide +kernel

/-- The number adjoined is not the root of a square. -/
theorem sq_ne_radicand (a : Goldilocks) : a * a ≠ radicand := by
  intro hsquare
  apply radicand_power
  have : Fact goldilocksPrime.Prime := ⟨prime_goldilocksPrime⟩
  have hne : Residue.toZMod a ≠ 0 := by
    intro hzero
    have ha : a = 0 := Residue.toZMod_injective (hzero.trans Residue.toZMod_zero.symm)
    rw [ha, mul_zero] at hsquare
    exact absurd hsquare (by decide)
  have horder : Residue.toZMod a ^ (goldilocksPrime - 1) = 1 :=
    ZMod.pow_card_sub_one_eq_one hne
  have hhalf : 2 * ((goldilocksPrime - 1) / 2) = goldilocksPrime - 1 := by norm_num
  apply Residue.toZMod_injective
  rw [Residue.toZMod_power, ← hsquare, Residue.toZMod_mul, ← sq, ← pow_mul, hhalf, horder,
    Residue.toZMod_one]

theorem norm_eq_zero_iff {a : GoldilocksExtension} : norm a = 0 ↔ a = 0 := by
  constructor
  · intro hnorm
    have hsquare : a.c0 * a.c0 = radicand * (a.c1 * a.c1) := sub_eq_zero.mp hnorm
    by_cases hone : a.c1 = 0
    · rw [hone, mul_zero, mul_zero] at hsquare
      exact ext (mul_self_eq_zero.mp hsquare) hone
    · exfalso
      apply sq_ne_radicand (a.c0 * a.c1⁻¹)
      rw [mul_mul_mul_comm, hsquare, mul_assoc, mul_mul_mul_comm, mul_inv_cancel₀ hone, one_mul,
        mul_one]
  · rintro rfl
    simp [norm]

private theorem mul_inv_of_ne_zero {a : GoldilocksExtension} (nonzero : a ≠ 0) : a * a⁻¹ = 1 := by
  have hnorm : norm a * (norm a)⁻¹ = 1 :=
    LawfulField.mul_inv_cancel (norm a) (mt norm_eq_zero_iff.mp nonzero)
  have hc0 : (a⁻¹).c0 = a.c0 * (norm a)⁻¹ := rfl
  have hc1 : (a⁻¹).c1 = -a.c1 * (norm a)⁻¹ := rfl
  apply ext
  · rw [c0_mul, hc0, hc1]
    calc
      _ = norm a * (norm a)⁻¹ := by
        rw [norm]
        ring
      _ = 1 := hnorm
  · rw [c1_mul, hc0, hc1]
    rw [c1_one]
    ring

instance : LawfulField GoldilocksExtension where
  add_assoc a b c := ext (add_assoc _ _ _) (add_assoc _ _ _)
  zero_add a := ext (zero_add _) (zero_add _)
  add_comm a b := ext (add_comm _ _) (add_comm _ _)
  neg_add_cancel a := ext (neg_add_cancel _) (neg_add_cancel _)
  sub_eq_add_neg a b := ext (sub_eq_add_neg _ _) (sub_eq_add_neg _ _)
  mul_assoc a b c := ext (by simp only [c0_mul, c1_mul]; ring) (by simp only [c0_mul, c1_mul]; ring)
  one_mul a := ext (by simp) (by simp)
  mul_comm a b := ext (by simp only [c0_mul]; ring) (by simp only [c1_mul]; ring)
  mul_add a b c := ext (by simp only [c0_mul, c0_add, c1_add]; ring)
    (by simp only [c1_mul, c0_add, c1_add]; ring)
  zero_ne_one := by decide
  mul_inv_cancel a := mul_inv_of_ne_zero
  inv_zero := by decide +kernel
  power_root := by decide +kernel
  power_root_ne_one := by decide +kernel
  encode_length a b := by
    have hlength (c : GoldilocksExtension) : (FiniteField.encode c).length =
        (FiniteField.encode c.c0).length + (FiniteField.encode c.c1).length :=
      List.length_append
    rw [hlength, hlength, LawfulField.encode_length a.c0 b.c0,
      LawfulField.encode_length a.c1 b.c1]
  encode_injective a b hequal := by
    obtain ⟨hfirst, hsecond⟩ :=
      List.append_inj hequal (LawfulField.encode_length a.c0 b.c0)
    exact ext (LawfulField.encode_injective hfirst) (LawfulField.encode_injective hsecond)

end GoldilocksExtension
end OracleProofs

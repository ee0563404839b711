/-
# Computing in a lawful field

The operations of `FiniteField` that are built from the field operations have
their usual meaning: images of natural numbers, refused inverses and running
sums. The roots of unity that generate the evaluation domains are primitive, and
each is a power of those of larger order.
-/

import Mathlib
import OracleProofs.Proofs.Field.Laws

namespace OracleProofs
namespace FiniteField

variable {F : Type} [FiniteField F] [LawfulField F]

/-- The image of a natural number is its cast. -/
@[simp]
theorem ofNat_eq_cast (number : ℕ) : (ofNat number : F) = number := by
  rw [ofNat, multiple_eq_nsmul, nsmul_one]

theorem inverse?_eq_some_iff {element inverse : F} :
    inverse? element = some inverse ↔ element ≠ 0 ∧ element⁻¹ = inverse := by
  rw [inverse?]
  split <;> simp_all

theorem inverse?_of_ne_zero {element : F} (nonzero : element ≠ 0) :
    inverse? element = some element⁻¹ :=
  inverse?_eq_some_iff.mpr ⟨nonzero, rfl⟩

/-- Elements have bytes, because there are two of them. -/
theorem width_pos : 0 < width F := by
  rw [width, List.length_pos_iff]
  intro hzero
  have hone : encode (1 : F) = [] := by
    rw [← List.length_eq_zero_iff, LawfulField.encode_length 1 0, hzero, List.length_nil]
  exact zero_ne_one (LawfulField.encode_injective (hzero.trans hone.symm))

/-- A running sum is the sum over a range. -/
theorem sumRange_eq_sum (count : ℕ) (term : ℕ → F) :
    sumRange count term = ∑ place ∈ Finset.range count, term place := by
  rw [sumRange]
  induction count with
  | zero => rfl
  | succ count ih => rw [Nat.fold_succ, ih, Finset.sum_range_succ]

section Root

/-- The two-adic root is primitive of its order. -/
theorem isPrimitiveRoot_twoAdicRoot :
    IsPrimitiveRoot (twoAdicRoot : F) (2 ^ twoAdicity F) := by
  have hpower : (twoAdicRoot : F) ^ 2 ^ twoAdicity F = 1 := by
    rw [← power_eq_pow]
    exact LawfulField.power_root
  by_cases htrivial : twoAdicity F = 0
  · rw [htrivial, pow_zero, pow_one] at hpower
    rw [htrivial, pow_zero, hpower]
    exact IsPrimitiveRoot.one
  · obtain ⟨height, hheight⟩ := Nat.exists_eq_succ_of_ne_zero htrivial
    have hhalf : (twoAdicRoot : F) ^ 2 ^ height ≠ 1 := by
      have := LawfulField.power_root_ne_one (F := F) htrivial
      rwa [hheight, Nat.succ_sub_one, power_eq_pow] at this
    have horder : orderOf (twoAdicRoot : F) = 2 ^ twoAdicity F := by
      rw [hheight]
      exact orderOf_eq_prime_pow hhalf (by rwa [← Nat.succ_eq_add_one, ← hheight])
    exact horder ▸ IsPrimitiveRoot.orderOf _

theorem rootOfUnity_eq_pow (dimension : ℕ) :
    rootOfUnity F dimension = (twoAdicRoot : F) ^ 2 ^ (twoAdicity F - dimension) := by
  rw [rootOfUnity, power_eq_pow, Nat.one_shiftLeft]

/-- The generator of each dimension is a primitive root of unity. -/
theorem isPrimitiveRoot_rootOfUnity {dimension : ℕ} (supported : dimension ≤ twoAdicity F) :
    IsPrimitiveRoot (rootOfUnity F dimension) (2 ^ dimension) := by
  rw [rootOfUnity_eq_pow]
  refine IsPrimitiveRoot.pow (by positivity) isPrimitiveRoot_twoAdicRoot ?_
  rw [← pow_add, Nat.sub_add_cancel supported]

/-- Raising a generator to a power of two gives the generator of a smaller
dimension. -/
theorem rootOfUnity_pow {dimension lower : ℕ} (le : lower ≤ dimension)
    (supported : dimension ≤ twoAdicity F) :
    rootOfUnity F dimension ^ 2 ^ (dimension - lower) = rootOfUnity F lower := by
  rw [rootOfUnity_eq_pow, rootOfUnity_eq_pow, ← pow_mul, ← pow_add]
  congr 2
  omega

/-- A field with a nontrivial two-adic root has odd characteristic, so the size
of every domain is invertible. -/
theorem two_pow_ne_zero {dimension : ℕ} (supported : dimension ≤ twoAdicity F) :
    (2 : F) ^ dimension ≠ 0 := by
  by_cases htrivial : dimension = 0
  · rw [htrivial, pow_zero]
    exact one_ne_zero
  · have hroot := isPrimitiveRoot_rootOfUnity (F := F)
      (Nat.one_le_iff_ne_zero.mpr htrivial |>.trans supported)
    rw [pow_one] at hroot
    have hneg : rootOfUnity F 1 = -1 := hroot.eq_neg_one_of_two_right
    have hone : rootOfUnity F 1 ≠ 1 := hroot.ne_one one_lt_two
    refine pow_ne_zero _ fun htwo => hone ?_
    rw [hneg, neg_eq_iff_add_eq_zero, one_add_one_eq_two, htwo]

end Root

end FiniteField
end OracleProofs

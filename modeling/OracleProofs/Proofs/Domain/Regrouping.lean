/-
# Points grouped by a smaller coset

An index of a coset is made of lower bits, which count the points of a smaller coset with the
same shift, and of higher bits, which count the multiples of that coset. Regrouping exchanges the
two: the lower bits become the higher ones. With as many higher bits as there were lower ones it
exchanges them back, so it permutes the positions.
-/

import Mathlib
import OracleProofs.Proofs.Domain.Coset
import OracleProofs.Proofs.Field.Prime

namespace OracleProofs
namespace Coset

variable {F : Type} [FiniteField F]

/-- A smaller or larger coset with the same shift exists up to the two-adicity of the field. -/
theorem subset?_eq_ok_iff {coset smaller : Coset F} {subset : ℕ} :
    coset.subset? subset = .ok smaller ↔
      subset < wordBits ∧ smaller.dimension = subset ∧ smaller.shift = coset.shift := by
  rw [subset?]
  by_cases hword : subset < wordBits
  · rw [if_pos hword, ofSize?_eq_ok_iff, Nat.one_shiftLeft, Nat.pow_right_inj one_lt_two,
      eq_comm (a := subset), eq_comm (a := coset.shift), and_iff_right hword]
  · simp [hword]

/-- Regrouping by the rest of the dimension undoes regrouping. -/
theorem regroup_regroup (coset : Coset F) {subset index : ℕ} (le : subset ≤ coset.dimension)
    (inside : index < coset.size) :
    coset.regroup (coset.dimension - subset) (coset.regroup subset index) = index := by
  have hgroup := coset.div_lt_of_lt_size le inside
  have hhigher : (index % 2 ^ subset * 2 ^ (coset.dimension - subset) + index / 2 ^ subset) /
      2 ^ (coset.dimension - subset) = index % 2 ^ subset := by
    rw [mul_comm, Nat.mul_add_div (Nat.two_pow_pos _), Nat.div_eq_of_lt hgroup, add_zero]
  rw [regroup_eq, regroup_eq, Nat.sub_sub_self le, Nat.mul_add_mod_of_lt hgroup, hhigher,
    Nat.div_add_mod']

/-- Regrouping permutes the positions. -/
theorem bijOn_regroup (coset : Coset F) {subset : ℕ} (le : subset ≤ coset.dimension) :
    Set.BijOn (coset.regroup subset) (Set.Iio coset.size) (Set.Iio coset.size) := by
  have hrest : coset.dimension - subset ≤ coset.dimension := Nat.sub_le _ _
  have hback {index : ℕ} (inside : index < coset.size) :
      coset.regroup subset (coset.regroup (coset.dimension - subset) index) = index := by
    have hundone := coset.regroup_regroup hrest inside
    rwa [Nat.sub_sub_self le] at hundone
  exact Set.InvOn.bijOn ⟨fun _ => coset.regroup_regroup le, fun _ => hback⟩
    (fun _ => coset.regroup_lt le) fun _ => coset.regroup_lt hrest

variable [LawfulField F]

/-- Regrouping by the dimension of a smaller coset is a permutation of the positions. It lists the
points of the smaller coset with the same shift, then those of its multiples by the powers of the
generator. -/
theorem regroup?_exact (coset : Coset F) {subset : ℕ} (le : subset ≤ coset.dimension) :
    (∀ index, coset.regroup? subset index = .ok (coset.regroup subset index)) ∧
      Set.BijOn (coset.regroup subset) (Set.Iio coset.size) (Set.Iio coset.size) ∧
      (coset.dimension < wordBits → ∃ smaller, coset.subset? subset = .ok smaller ∧
        smaller.size = 2 ^ subset ∧ smaller.shift = coset.shift ∧
        ∀ index < coset.size, coset.element (coset.regroup subset index) =
          coset.generator ^ (index / 2 ^ subset) * smaller.element (index % 2 ^ subset)) := by
  refine ⟨fun _ => if_pos le, coset.bijOn_regroup le, fun hword => ?_⟩
  obtain ⟨smaller, rfl, hshift⟩ :
      ∃ smaller : Coset F, smaller.dimension = subset ∧ smaller.shift = coset.shift :=
    ⟨⟨subset, coset.shift, le.trans coset.dimension_le, coset.shift_ne_zero⟩, rfl, rfl⟩
  exact ⟨smaller, subset?_eq_ok_iff.mpr ⟨le.trans_lt hword, rfl, hshift⟩, smaller.size_eq, hshift,
    fun index _ => element_regroup le hshift index⟩

/-- Eight points, of which the first and the fifth make the smaller coset of two points. -/
def eighthRoots : Coset Goldilocks := ⟨3, .ofNat 5, by decide, by decide⟩

/-- The second point of the third group of two stands at the seventh position. -/
theorem regroup?_exact_at_eighth_roots :
    eighthRoots.regroup? 1 5 = .ok 6 ∧ ∃ smaller, eighthRoots.subset? 1 = .ok smaller ∧
      eighthRoots.element 6 = eighthRoots.generator ^ 2 * smaller.element 1 := by
  obtain ⟨hregroup, -, hpoints⟩ := regroup?_exact eighthRoots (by decide : 1 ≤ 3)
  obtain ⟨smaller, hsmaller, -, -, helement⟩ := hpoints (by decide)
  exact ⟨hregroup 5, smaller, hsmaller, helement 5 (by decide)⟩

end Coset
end OracleProofs

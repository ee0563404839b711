/-
# Sorting by bits and summing words

A list of numbers is sorted without repetition by dividing it along its bits.
The result is the only strictly increasing list with the same members, so two
lists of queries are answered by the same leaves exactly if they reach the same
leaves.
-/

import Mathlib
import OracleProofs.Binary.Word

namespace OracleProofs

@[simp]
theorem total_id (terms : List ℕ) : total id terms = terms.sum := by
  rw [total, List.sum_eq_foldr]
  rfl

theorem wordSum?_eq_some_iff {terms : List ℕ} {sum : ℕ} :
    wordSum? terms = some sum ↔ terms.sum = sum ∧ sum < wordValues := by
  rw [wordSum?, total_id]
  split <;> simp <;> omega

section Sorting

/-- The numbers agree in everything above the lowest bits. -/
private def AgreeAbove (bits : ℕ) (numbers : List ℕ) : Prop :=
  ∃ high, ∀ number ∈ numbers, number / 2 ^ bits = high

private theorem div_two_pow_eq (bits number : ℕ) :
    number / 2 ^ bits =
      2 * (number / 2 ^ (bits + 1)) + (number.testBit bits).toNat := by
  have h := Nat.div_add_mod (number / 2 ^ bits) 2
  rw [Nat.div_div_eq_div_mul, ← pow_succ] at h
  rw [Nat.toNat_testBit]
  exact h.symm

private theorem AgreeAbove.filter {bits : ℕ} {numbers : List ℕ}
    (agree : AgreeAbove (bits + 1) numbers) (bit : Bool) :
    AgreeAbove bits (numbers.filter fun number => number.testBit bits == bit) := by
  obtain ⟨high, hhigh⟩ := agree
  refine ⟨2 * high + bit.toNat, fun number hmem => ?_⟩
  obtain ⟨hnumber, hbit⟩ := List.mem_filter.mp hmem
  rw [div_two_pow_eq, hhigh number hnumber, beq_iff_eq.mp hbit]

private theorem sortedByBits_succ (bits : ℕ) (numbers : List ℕ) :
    sortedByBits (bits + 1) numbers =
      sortedByBits bits (numbers.filter fun number => number.testBit bits == false) ++
        sortedByBits bits (numbers.filter fun number => number.testBit bits == true) := by
  cases numbers with
  | nil => cases bits <;> rfl
  | cons first rest => simp [sortedByBits]

private theorem mem_sortedByBits {bits : ℕ} {numbers : List ℕ}
    (agree : AgreeAbove bits numbers) (number : ℕ) :
    number ∈ sortedByBits bits numbers ↔ number ∈ numbers := by
  induction bits generalizing numbers with
  | zero =>
      obtain ⟨high, hhigh⟩ := agree
      cases numbers with
      | nil => rfl
      | cons first rest =>
          have hall : ∀ other ∈ first :: rest, other = high := by simpa using hhigh
          rw [sortedByBits, List.mem_singleton]
          constructor
          · rintro rfl
            exact List.mem_cons_self
          · intro hmem
            rw [hall number hmem, hall first List.mem_cons_self]
  | succ bits ih =>
      rw [sortedByBits_succ, List.mem_append, ih (agree.filter false), ih (agree.filter true),
        List.mem_filter, List.mem_filter]
      cases number.testBit bits <;> simp

private theorem pairwise_sortedByBits {bits : ℕ} {numbers : List ℕ}
    (agree : AgreeAbove bits numbers) : (sortedByBits bits numbers).Pairwise (· < ·) := by
  induction bits generalizing numbers with
  | zero =>
      cases numbers with
      | nil => exact List.Pairwise.nil
      | cons first rest => exact List.pairwise_singleton _ _
  | succ bits ih =>
      rw [sortedByBits_succ]
      refine List.pairwise_append.mpr ⟨ih (agree.filter false), ih (agree.filter true), ?_⟩
      intro lower hlower upper hupper
      rw [mem_sortedByBits (agree.filter false), List.mem_filter, beq_iff_eq] at hlower
      rw [mem_sortedByBits (agree.filter true), List.mem_filter, beq_iff_eq] at hupper
      obtain ⟨high, hhigh⟩ := agree
      have hlow : lower / 2 ^ bits = 2 * high := by
        rw [div_two_pow_eq, hhigh lower hlower.1, hlower.2, Bool.toNat_false, add_zero]
      have hup : upper / 2 ^ bits = 2 * high + 1 := by
        rw [div_two_pow_eq, hhigh upper hupper.1, hupper.2, Bool.toNat_true]
      by_contra hle
      have := Nat.div_le_div_right (c := 2 ^ bits) (not_lt.mp hle)
      omega

private theorem le_foldr_max {numbers : List ℕ} {number : ℕ} (hmem : number ∈ numbers) :
    number ≤ numbers.foldr max 0 := by
  induction numbers with
  | nil => cases hmem
  | cons first rest ih =>
      rw [List.foldr_cons]
      rcases List.mem_cons.mp hmem with rfl | hrest
      · exact le_max_left _ _
      · exact (ih hrest).trans (le_max_right _ _)

private theorem agreeAbove_sortedDistinct (numbers : List ℕ) :
    AgreeAbove ((numbers.foldr max 0).log2 + 1) numbers :=
  ⟨0, fun _ hmem => Nat.div_eq_of_lt ((le_foldr_max hmem).trans_lt Nat.lt_log2_self)⟩

@[simp]
theorem mem_sortedDistinct {numbers : List ℕ} {number : ℕ} :
    number ∈ sortedDistinct numbers ↔ number ∈ numbers :=
  mem_sortedByBits (agreeAbove_sortedDistinct numbers) number

theorem pairwise_sortedDistinct (numbers : List ℕ) :
    (sortedDistinct numbers).Pairwise (· < ·) :=
  pairwise_sortedByBits (agreeAbove_sortedDistinct numbers)

/-- In a sorted list a member is found by comparing. -/
theorem getElem?_findIdx_le {numbers : List ℕ} (sorted : numbers.Pairwise (· < ·)) {number : ℕ}
    (hmem : number ∈ numbers) :
    numbers[numbers.findIdx (fun other => decide (number ≤ other))]? = some number := by
  induction numbers with
  | nil => cases hmem
  | cons first rest ih =>
      rw [List.pairwise_cons] at sorted
      rcases List.mem_cons.mp hmem with rfl | hrest
      · simp [List.findIdx_cons]
      · have hlater : decide (number ≤ first) = false :=
          decide_eq_false (not_le.mpr (sorted.1 number hrest))
        rw [List.findIdx_cons, hlater, cond_false, List.getElem?_cons_succ]
        exact ih sorted.2 hrest

/-- The sorted list depends on the set of members only. -/
theorem sortedDistinct_eq_iff {first second : List ℕ} :
    sortedDistinct first = sortedDistinct second ↔ ∀ number, number ∈ first ↔ number ∈ second := by
  constructor
  · intro hequal number
    rw [← mem_sortedDistinct, hequal, mem_sortedDistinct]
  · intro hsame
    refine (pairwise_sortedDistinct first).eq_of_mem_iff (pairwise_sortedDistinct second) ?_
    intro number
    rw [mem_sortedDistinct, mem_sortedDistinct, hsame]

end Sorting
end OracleProofs

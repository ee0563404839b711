/-
# Values and terms of linearized polynomials

A linearized polynomial is the sum of its constant term and of the products of
its coefficients with the powers `x ^ 2 ^ i`, and its list of terms stands for
that sum. The operations act on the coefficients one by one, so what they do to
a value is read off the sum. In characteristic two squaring is additive; hence
so is the part without the constant, and the square that doubles all exponents
has the squared values.
-/

import Mathlib
import OracleProofs.Polynomial.Linearized
import OracleProofs.Proofs.Polynomial.Sparse

namespace OracleProofs
namespace Linearized

open Polynomial

variable {F : Type} [FiniteField F] [LawfulField F]

section Coefficients

omit [LawfulField F] in
theorem getD_trim (linear : List F) (place : ℕ) :
    (trim linear).getD place 0 = linear.getD place 0 := by
  fun_induction trim generalizing place with
  | case1 => rfl
  | case2 rest hrest ih =>
      cases place with
      | zero => rfl
      | succ place => rw [List.getD_cons_succ, ← ih, hrest, List.getD_nil, List.getD_nil]
  | case3 first rest hrest hne ih =>
      cases place with
      | zero => rfl
      | succ place => rw [List.getD_cons_succ, List.getD_cons_succ, ← ih, hrest]
  | case4 first rest hkept ih =>
      cases place with
      | zero => rfl
      | succ place => exact ih place

omit [LawfulField F] in
/-- A trimmed list does not end with zero. -/
theorem getLast?_trim (linear : List F) : (trim linear).getLast? ≠ some 0 := by
  fun_induction trim with
  | case1 => simp
  | case2 => simp
  | case3 first rest hrest hne ih => simpa using hne
  | case4 first rest hkept ih =>
      rwa [List.getLast?_cons_of_ne_nil hkept]

omit [LawfulField F] in
theorem getD_combineLinear {join : F → F → F} (join_zero : join 0 0 = 0) (left right : List F)
    (place : ℕ) : (combineLinear join left right).getD place 0 =
      join (left.getD place 0) (right.getD place 0) := by
  fun_induction combineLinear generalizing place with
  | case1 right =>
      rw [List.getD_nil, ← List.getD_map right 0 (join 0), join_zero]
  | case2 left hne =>
      rw [List.getD_nil, ← List.getD_map left 0 (join · 0), join_zero]
  | case3 first left second right ih =>
      cases place with
      | zero => rfl
      | succ place => exact ih place

omit [LawfulField F] in
/-- A list that does not end with zero is no longer than the place of its highest coefficient. -/
theorem length_le_of_getD {linear : List F} {bound : ℕ} (normal : linear.getLast? ≠ some 0)
    (above : ∀ place ≥ bound, linear.getD place 0 = 0) : linear.length ≤ bound := by
  by_contra hlong
  have hlast := above (linear.length - 1) (by omega)
  rw [List.getD_eq_getElem _ _ (by omega)] at hlast
  refine normal ?_
  rw [List.getLast?_eq_getElem?, List.getElem?_eq_getElem (by omega), hlast]

omit [LawfulField F] in
/-- A list that does not end with zero is as long as its highest coefficient requires. -/
theorem length_eq_of_getD {linear : List F} {place : ℕ} (normal : linear.getLast? ≠ some 0)
    (leading : linear.getD place 0 ≠ 0) (above : ∀ higher > place, linear.getD higher 0 = 0) :
    linear.length = place + 1 := by
  have hinside : place < linear.length := by
    by_contra hle
    exact leading (List.getD_eq_default _ _ (not_lt.mp hle))
  exact le_antisymm (length_le_of_getD normal above) hinside

theorem getD_linear_scale (p : Linearized F) (factor : F) (place : ℕ) :
    (p.scale factor).linear.getD place 0 = p.linear.getD place 0 * factor := by
  rw [scale, ofParts, getD_trim, ← List.getD_map p.linear 0 (· * factor), zero_mul]

theorem getD_linear_sub (p q : Linearized F) (place : ℕ) :
    (p - q).linear.getD place 0 = p.linear.getD place 0 - q.linear.getD place 0 :=
  (getD_trim _ place).trans (getD_combineLinear (sub_zero 0) p.linear q.linear place)

theorem getD_linear_square (p : Linearized F) (place : ℕ) :
    p.square.linear.getD (place + 1) 0 = p.linear.getD place 0 * p.linear.getD place 0 := by
  obtain ⟨constant, linear⟩ := p
  cases linear with
  | nil => exact (mul_zero 0).symm
  | cons first rest =>
      rw [square, List.getD_cons_succ, ← mul_zero 0,
        List.getD_map (first :: rest) 0 fun coefficient => coefficient * coefficient, mul_zero]

end Coefficients

section Values

/-- A value is a sum over any range that covers all coefficients. -/
theorem evaluateLinear_eq_sum {linear : List F} {count : ℕ} (covers : linear.length ≤ count)
    (point : F) : evaluateLinear linear point =
      ∑ place ∈ Finset.range count, linear.getD place 0 * point ^ 2 ^ place := by
  induction linear generalizing count point with
  | nil => simp [evaluateLinear]
  | cons first rest ih =>
      obtain ⟨count, rfl⟩ := Nat.exists_eq_add_one_of_ne_zero
        (Nat.ne_zero_of_lt (Nat.lt_of_succ_le covers))
      have hpower (place : ℕ) : (point * point) ^ 2 ^ place = point ^ 2 ^ (place + 1) := by
        rw [← sq, ← pow_mul, ← pow_succ']
      rw [evaluateLinear, ih (Nat.le_of_succ_le_succ covers), Finset.sum_range_succ', add_comm]
      simp only [hpower, List.getD_cons_succ, List.getD_cons_zero, pow_zero, pow_one]

theorem evaluate_scale (p : Linearized F) (factor point : F) :
    (p.scale factor).evaluate point = p.evaluate point * factor := by
  have hlinear : evaluateLinear (p.scale factor).linear point =
      evaluateLinear p.linear point * factor := by
    rw [evaluateLinear_eq_sum (le_max_left (p.scale factor).linear.length p.linear.length),
      evaluateLinear_eq_sum (le_max_right (p.scale factor).linear.length p.linear.length),
      Finset.sum_mul]
    apply Finset.sum_congr rfl
    intro place _
    rw [getD_linear_scale]
    ring
  rw [evaluate, hlinear, evaluate, add_mul]
  rfl

theorem evaluate_sub (p q : Linearized F) (point : F) :
    (p - q).evaluate point = p.evaluate point - q.evaluate point := by
  have hlinear : evaluateLinear (p - q).linear point =
      evaluateLinear p.linear point - evaluateLinear q.linear point := by
    obtain ⟨count, hpq, hp, hq⟩ : ∃ count, (p - q).linear.length ≤ count ∧
        p.linear.length ≤ count ∧ q.linear.length ≤ count :=
      ⟨(p - q).linear.length + p.linear.length + q.linear.length, by omega, by omega, by omega⟩
    rw [evaluateLinear_eq_sum hpq, evaluateLinear_eq_sum hp, evaluateLinear_eq_sum hq]
    simp only [getD_linear_sub, sub_mul, Finset.sum_sub_distrib]
  have hconstant : (p - q).constant = p.constant - q.constant := rfl
  rw [evaluate, hlinear, hconstant, evaluate, evaluate]
  ring

end Values

section CharacteristicTwo

variable [CharP F 2]

/-- Without its constant term a linearized polynomial is additive. -/
theorem evaluateLinear_add (linear : List F) (a b : F) :
    evaluateLinear linear (a + b) = evaluateLinear linear a + evaluateLinear linear b := by
  induction linear generalizing a b with
  | nil => rw [evaluateLinear, evaluateLinear, evaluateLinear, add_zero]
  | cons first rest ih =>
      rw [evaluateLinear, evaluateLinear, evaluateLinear, CharTwo.add_mul_self, ih]
      ring

/-- A vector changes the value by the same amount at every point. -/
theorem evaluate_add_point (p : Linearized F) (a vector : F) :
    p.evaluate (a + vector) = p.evaluate a + (p.evaluate vector - p.constant) := by
  rw [evaluate, evaluate, evaluate, evaluateLinear_add, add_sub_cancel_left, add_assoc]

private theorem evaluateLinear_map_square (linear : List F) (point : F) :
    evaluateLinear (linear.map fun coefficient => coefficient * coefficient) (point * point) =
      evaluateLinear linear point * evaluateLinear linear point := by
  induction linear generalizing point with
  | nil => rw [List.map_nil, evaluateLinear, evaluateLinear, mul_zero]
  | cons first rest ih =>
      rw [List.map_cons, evaluateLinear, evaluateLinear, ih, CharTwo.add_mul_self]
      ring

/-- The square that doubles all exponents has the squared values. -/
theorem evaluate_square (p : Linearized F) (point : F) :
    p.square.evaluate point = p.evaluate point * p.evaluate point := by
  obtain ⟨constant, linear⟩ := p
  have hlinear : evaluateLinear (square ⟨constant, linear⟩).linear point =
      evaluateLinear linear point * evaluateLinear linear point := by
    cases linear with
    | nil => exact (mul_zero 0).symm
    | cons first rest =>
        rw [← evaluateLinear_map_square, square, evaluateLinear, zero_mul, zero_add]
  rw [evaluate, hlinear, evaluate, CharTwo.add_mul_self]
  rfl

end CharacteristicTwo

section Terms

omit [LawfulField F] in
theorem le_of_mem_linearTerms {exponent : ℕ} {linear : List F} {term : ℕ × F}
    (hmem : term ∈ linearTerms exponent linear) : exponent ≤ term.1 := by
  induction linear generalizing exponent with
  | nil => cases hmem
  | cons first rest ih =>
      rw [linearTerms] at hmem
      by_cases hzero : first = 0
      · rw [if_pos hzero] at hmem
        have := ih hmem
        omega
      · rw [if_neg hzero] at hmem
        rcases List.mem_cons.mp hmem with rfl | hrest
        · exact le_rfl
        · have := ih hrest
          omega

omit [LawfulField F] in
theorem pairwise_linearTerms {exponent : ℕ} (positive : 0 < exponent) (linear : List F) :
    (linearTerms exponent linear).Pairwise fun first second => first.1 < second.1 := by
  induction linear generalizing exponent with
  | nil => exact .nil
  | cons first rest ih =>
      have hrest := @ih (2 * exponent) (by omega)
      rw [linearTerms]
      by_cases hzero : first = 0
      · rwa [if_pos hzero]
      · rw [if_neg hzero]
        refine List.pairwise_cons.mpr ⟨fun term hmem => ?_, hrest⟩
        have := le_of_mem_linearTerms hmem
        dsimp only
        omega

omit [LawfulField F] in
/-- The exponents of the terms increase. -/
theorem pairwise_terms (p : Linearized F) :
    p.terms.Pairwise fun first second => first.1 < second.1 := by
  have hsorted := pairwise_linearTerms one_pos p.linear
  rw [terms]
  by_cases hzero : p.constant = 0
  · rwa [if_pos hzero]
  · rw [if_neg hzero]
    refine List.pairwise_cons.mpr ⟨fun term hmem => ?_, hsorted⟩
    exact Nat.lt_of_succ_le (le_of_mem_linearTerms hmem)

omit [LawfulField F] in
/-- The last coefficient makes the last term. -/
theorem getLast?_linearTerms {exponent count : ℕ} {linear : List F} {leading : F}
    (length : linear.length = count + 1) (last : linear.getLast? = some leading)
    (ne_zero : leading ≠ 0) :
    (linearTerms exponent linear).getLast? = some (exponent * 2 ^ count, leading) := by
  induction linear generalizing exponent count with
  | nil => cases last
  | cons first rest ih =>
      cases count with
      | zero =>
          obtain rfl : rest = [] := List.length_eq_zero_iff.mp (Nat.succ.inj length)
          obtain rfl : first = leading := Option.some.inj last
          rw [linearTerms, linearTerms, if_neg ne_zero, pow_zero, mul_one]
          rfl
      | succ count =>
          have hlength : rest.length = count + 1 := Nat.succ.inj length
          have hrest : rest ≠ [] := List.ne_nil_of_length_eq_add_one hlength
          rw [List.getLast?_cons_of_ne_nil hrest] at last
          have hlater := @ih (2 * exponent) count hlength last
          have hne : linearTerms (2 * exponent) rest ≠ [] := by
            intro hnil
            rw [hnil] at hlater
            cases hlater
          have hexponent : exponent * 2 ^ (count + 1) = 2 * exponent * 2 ^ count := by ring
          rw [linearTerms, hexponent]
          by_cases hzero : first = 0
          · rwa [if_pos hzero]
          · rwa [if_neg hzero, List.getLast?_cons_of_ne_nil hne]

omit [LawfulField F] in
/-- The terms of a polynomial that does not end with zero, in the order of their exponents. -/
theorem leads_terms {p : Linearized F} {count : ℕ} {leading : F}
    (length : p.linear.length = count + 1) (last : p.linear.getLast? = some leading)
    (ne_zero : leading ≠ 0) : p.terms.Leads (2 ^ count) leading := by
  have hlast : (linearTerms 1 p.linear).getLast? = some (2 ^ count, leading) := by
    rw [getLast?_linearTerms length last ne_zero, one_mul]
  refine ⟨?_, p.pairwise_terms, ne_zero⟩
  rw [terms]
  by_cases hzero : p.constant = 0
  · rwa [if_pos hzero]
  · rwa [if_neg hzero, List.getLast?_cons_of_ne_nil (by
      intro hnil
      rw [hnil] at hlast
      cases hlast)]

theorem eval_toPolynomial_linearTerms (exponent : ℕ) (linear : List F) (point : F) :
    (linearTerms exponent linear).toPolynomial.eval point =
      evaluateLinear linear (point ^ exponent) := by
  induction linear generalizing exponent with
  | nil => simp [linearTerms, evaluateLinear, Terms.toPolynomial]
  | cons first rest ih =>
      have hsquare : point ^ (2 * exponent) = point ^ exponent * point ^ exponent := by
        rw [two_mul, pow_add]
      rw [linearTerms, evaluateLinear, ← hsquare, ← ih]
      by_cases hzero : first = 0
      · rw [if_pos hzero, hzero, zero_mul, zero_add]
      · rw [if_neg hzero, Terms.toPolynomial_cons]
        simp

/-- The value is the one of the polynomial that the terms stand for. -/
theorem eval_toPolynomial_terms (p : Linearized F) (point : F) :
    p.terms.toPolynomial.eval point = p.evaluate point := by
  have hlinear := eval_toPolynomial_linearTerms 1 p.linear point
  rw [pow_one] at hlinear
  rw [terms, evaluate]
  by_cases hzero : p.constant = 0
  · rw [if_pos hzero, hlinear, hzero, zero_add]
  · rw [if_neg hzero, Terms.toPolynomial_cons, eval_add, hlinear]
    simp

/-- Written out, the polynomial is the one that the terms stand for. -/
theorem toPolynomial_expand {p : Linearized F} {degree : ℕ} {leading : F}
    (leads : p.terms.Leads degree leading) : p.expand.toPolynomial = p.terms.toPolynomial :=
  (DensePoly.toPolynomial_ofCoefficients _).trans leads.polynomialOf_toCoefficients

end Terms
end Linearized
end OracleProofs

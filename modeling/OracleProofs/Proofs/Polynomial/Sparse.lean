/-
# Products with and division by few terms

The terms of a sparse polynomial stand for the sum of their monomials. Adding a
multiple of them to an array of coefficients adds the multiple of that
polynomial. A product adds one multiple for each coefficient, and each step of
long division keeps the equation between dividend, quotient and remainder while
it clears one more entry of the remainder.
-/

import Mathlib
import OracleProofs.Polynomial.Sparse
import OracleProofs.Proofs.Polynomial.Dense

namespace OracleProofs

open Polynomial

variable {F : Type} [FiniteField F] [LawfulField F]

omit [LawfulField F] in
@[simp]
theorem size_addTerm (coefficients : Array F) (exponent : ℕ) (change : F) :
    (addTerm coefficients exponent change).size = coefficients.size := by
  simp [addTerm]

theorem polynomialOf_addTerm {coefficients : Array F} {exponent : ℕ}
    (inside : exponent < coefficients.size) (change : F) :
    polynomialOf (addTerm coefficients exponent change) =
      polynomialOf coefficients + C change * X ^ exponent := by
  ext place
  rw [coeff_add, coeff_polynomialOf, coeff_polynomialOf, coeff_C_mul_X_pow, addTerm]
  simp only [Array.getD_eq_getD_getElem?, Array.getElem?_modify]
  by_cases hplace : exponent = place
  · subst hplace
    simp [inside]
  · simp [hplace, Ne.symm hplace]

namespace Terms

/-- The sum of the monomials. -/
noncomputable def toPolynomial (terms : Terms F) : F[X] :=
  (terms.map fun (exponent, coefficient) => C coefficient * X ^ exponent).sum

theorem toPolynomial_cons (exponent : ℕ) (coefficient : F) (rest : Terms F) :
    toPolynomial ((exponent, coefficient) :: rest) =
      C coefficient * X ^ exponent + toPolynomial rest := by
  rw [toPolynomial, List.map_cons, List.sum_cons, toPolynomial]

omit [LawfulField F] in
@[simp]
theorem size_accumulate (terms : Terms F) (shift : ℕ) (factor : F) (coefficients : Array F) :
    (terms.accumulate shift factor coefficients).size = coefficients.size := by
  induction terms generalizing coefficients with
  | nil => rfl
  | cons first rest ih => exact (ih _).trans (size_addTerm _ _ _)

/-- Accumulating terms adds a multiple of their polynomial. -/
theorem polynomialOf_accumulate {terms : Terms F} {shift : ℕ} {coefficients : Array F}
    (inside : ∀ term ∈ terms, term.1 + shift < coefficients.size) (factor : F) :
    polynomialOf (terms.accumulate shift factor coefficients) =
      polynomialOf coefficients + C factor * X ^ shift * terms.toPolynomial := by
  induction terms generalizing coefficients with
  | nil => simp [accumulate, toPolynomial]
  | cons first rest ih =>
      obtain ⟨exponent, coefficient⟩ := first
      have hfirst : exponent + shift < coefficients.size := inside _ List.mem_cons_self
      have hrest := @ih (addTerm coefficients (exponent + shift) (factor * coefficient)) (by
        intro term hmem
        rw [size_addTerm]
        exact inside term (List.mem_cons_of_mem _ hmem))
      show polynomialOf (accumulate rest shift factor _) = _
      rw [hrest, polynomialOf_addTerm hfirst, toPolynomial_cons, C_mul, pow_add]
      ring

/-- The last term has the highest exponent and a coefficient other than zero. -/
structure Leads (terms : Terms F) (degree : ℕ) (leading : F) : Prop where
  getLast? : terms.getLast? = some (degree, leading)
  sorted : terms.Pairwise fun first second => first.1 < second.1
  ne_zero : leading ≠ 0

section Leading

variable {terms : Terms F} {degree : ℕ} {leading : F}

omit [LawfulField F] in
theorem Leads.exists_append (leads : terms.Leads degree leading) :
    ∃ lower, terms = lower ++ [(degree, leading)] ∧ ∀ term ∈ lower, term.1 < degree := by
  obtain ⟨lower, rfl⟩ := List.getLast?_eq_some_iff.mp leads.getLast?
  refine ⟨lower, rfl, ?_⟩
  intro term hmem
  exact (List.pairwise_append.mp leads.sorted).2.2 term hmem _ List.mem_cons_self

omit [LawfulField F] in
theorem Leads.exponent_le (leads : terms.Leads degree leading) {term : ℕ × F}
    (hmem : term ∈ terms) : term.1 ≤ degree := by
  obtain ⟨lower, rfl, hlower⟩ := leads.exists_append
  rcases List.mem_append.mp hmem with hmem | hmem
  · exact (hlower term hmem).le
  · rw [List.mem_singleton.mp hmem]

private theorem coeff_toPolynomial_of_lt {lower : Terms F} {exponent : ℕ}
    (below : ∀ term ∈ lower, term.1 < exponent) : (toPolynomial lower).coeff exponent = 0 := by
  induction lower with
  | nil => simp [toPolynomial]
  | cons first rest ih =>
      have hfirst := below first List.mem_cons_self
      have hrest := ih fun term hmem => below term (List.mem_cons_of_mem _ hmem)
      rw [toPolynomial_cons, coeff_add, hrest, coeff_C_mul_X_pow, if_neg hfirst.ne', add_zero]

private theorem toPolynomial_append (first second : Terms F) :
    toPolynomial (first ++ second) = toPolynomial first + toPolynomial second := by
  rw [toPolynomial, List.map_append, List.sum_append, toPolynomial, toPolynomial]

theorem Leads.coeff_degree (leads : terms.Leads degree leading) :
    terms.toPolynomial.coeff degree = leading := by
  obtain ⟨lower, rfl, hlower⟩ := leads.exists_append
  rw [toPolynomial_append, coeff_add, coeff_toPolynomial_of_lt hlower]
  simp [toPolynomial]

theorem Leads.coeff_of_lt (leads : terms.Leads degree leading) {exponent : ℕ}
    (above : degree < exponent) : terms.toPolynomial.coeff exponent = 0 :=
  coeff_toPolynomial_of_lt fun _ hmem => (leads.exponent_le hmem).trans_lt above

theorem Leads.degree_toPolynomial (leads : terms.Leads degree leading) :
    terms.toPolynomial.degree = degree := by
  refine degree_eq_of_le_of_coeff_ne_zero (degree_le_iff_coeff_zero _ _ |>.mpr ?_) ?_
  · intro exponent habove
    exact leads.coeff_of_lt (Nat.cast_lt.mp habove)
  · rw [leads.coeff_degree]
    exact leads.ne_zero

theorem Leads.natDegree_toPolynomial (leads : terms.Leads degree leading) :
    terms.toPolynomial.natDegree = degree :=
  natDegree_eq_of_degree_eq_some leads.degree_toPolynomial

theorem Leads.monic_toPolynomial (leads : terms.Leads degree 1) : terms.toPolynomial.Monic :=
  monic_of_natDegree_le_of_coeff_eq_one degree leads.natDegree_toPolynomial.le leads.coeff_degree

omit [LawfulField F] in
theorem Leads.degree_eq (leads : terms.Leads degree leading) : terms.degree = degree := by
  rw [Terms.degree, leads.getLast?, Option.map_some, Option.getD_some]

omit [FiniteField F] [LawfulField F] in
/-- If the exponents increase, none is higher than the last one. -/
theorem bounded_of_sorted (sorted : terms.Pairwise fun first second => first.1 < second.1) :
    ∀ term ∈ terms, term.1 ≤ terms.degree := by
  intro term hmem
  have hnonempty := List.ne_nil_of_mem hmem
  have hdegree : terms.degree = (terms.getLast hnonempty).1 := by
    rw [Terms.degree, List.getLast?_eq_some_getLast hnonempty, Option.map_some, Option.getD_some]
  rw [hdegree]
  rw [← List.dropLast_append_getLast hnonempty] at hmem sorted
  rcases List.mem_append.mp hmem with hlower | hlast
  · exact ((List.pairwise_append.mp sorted).2.2 term hlower _ (List.mem_singleton_self _)).le
  · rw [List.mem_singleton.mp hlast]

omit [LawfulField F] in
theorem Leads.bounded (leads : terms.Leads degree leading) :
    ∀ term ∈ terms, term.1 ≤ terms.degree :=
  bounded_of_sorted leads.sorted

/-- Written out, the terms are the coefficients of their polynomial. -/
theorem polynomialOf_toCoefficients (bounded : ∀ term ∈ terms, term.1 ≤ terms.degree) :
    polynomialOf terms.toCoefficients = terms.toPolynomial := by
  have hroom : ∀ term ∈ terms,
      term.1 + 0 < (Array.replicate (terms.degree + 1) (0 : F)).size := by
    intro term hmem
    have hle := bounded term hmem
    rw [Array.size_replicate]
    omega
  rw [toCoefficients, polynomialOf_accumulate hroom, polynomialOf_replicate_zero]
  simp

theorem Leads.polynomialOf_toCoefficients (leads : terms.Leads degree leading) :
    polynomialOf terms.toCoefficients = terms.toPolynomial :=
  Terms.polynomialOf_toCoefficients leads.bounded

end Leading

section Multiplication

variable {terms : Terms F} {degree : ℕ} {leading : F}

/-- Accumulating the terms once for each coefficient adds the product. -/
private theorem polynomialOf_fold_accumulate (factor : ℕ → F) {count : ℕ} {start : Array F}
    (inside : ∀ term ∈ terms, ∀ shift < count, term.1 + shift < start.size) :
    (count.fold (fun shift _ sum => terms.accumulate shift (factor shift) sum) start).size =
        start.size ∧
      polynomialOf
          (count.fold (fun shift _ sum => terms.accumulate shift (factor shift) sum) start) =
        polynomialOf start +
          terms.toPolynomial * ∑ place ∈ Finset.range count, C (factor place) * X ^ place := by
  induction count with
  | zero => simp
  | succ count ih =>
      obtain ⟨hsize, hvalue⟩ := ih fun term hmem shift hlt =>
        inside term hmem shift (hlt.trans (Nat.lt_succ_self _))
      have hinside := fun term hmem => inside term hmem count (Nat.lt_succ_self _)
      rw [← hsize] at hinside
      rw [Nat.fold_succ, size_accumulate, polynomialOf_accumulate hinside, hvalue,
        Finset.sum_range_succ]
      exact ⟨hsize, by ring⟩

/-- The product term by term is the product of the ring. -/
theorem polynomialOf_multiply (bounded : ∀ term ∈ terms, term.1 ≤ terms.degree)
    (dense : Array F) :
    polynomialOf (terms.multiply dense) = terms.toPolynomial * polynomialOf dense := by
  have hroom : ∀ term ∈ terms, ∀ shift < dense.size,
      term.1 + shift < (Array.replicate (terms.productSize dense.size) (0 : F)).size := by
    intro term hmem shift hlt
    have hle := bounded term hmem
    have hdense : dense.size ≠ 0 := ((Nat.zero_le shift).trans_lt hlt).ne'
    rw [Array.size_replicate, productSize,
      if_neg (by simp [List.ne_nil_of_mem hmem, hdense])]
    omega
  have hread : terms.multiply dense = dense.size.fold
      (fun shift inside sum => terms.accumulate shift (dense.getD shift 0) sum)
      (Array.replicate (terms.productSize dense.size) 0) := by
    rw [multiply]
    congr 1
    funext shift inside sum
    rw [Array.getElem_eq_getD 0]
  rw [hread, (polynomialOf_fold_accumulate _ hroom).2, polynomialOf_replicate_zero, zero_add,
    ← polynomialOf_eq_sum]

theorem Leads.polynomialOf_multiply (leads : terms.Leads degree leading) (dense : Array F) :
    polynomialOf (terms.multiply dense) = terms.toPolynomial * polynomialOf dense :=
  Terms.polynomialOf_multiply leads.bounded dense

end Multiplication

section Division

variable {terms : Terms F} {degree : ℕ} {leading : F} {dividend : Array F}

/-- What holds before the step at a place: dividend, quotient and remainder satisfy
the equation, all entries of the remainder above are cleared and none of the
quotient below is set. -/
private structure Invariant (terms : Terms F) (dividend : Array F) (degree place : ℕ)
    (state : Division F) : Prop where
  equation : polynomialOf dividend =
    terms.toPolynomial * polynomialOf state.quotient + polynomialOf state.remainder
  size_quotient : state.quotient.size = dividend.size - degree
  size_remainder : state.remainder.size = dividend.size
  cleared : ∀ exponent ≥ place + degree, (polynomialOf state.remainder).coeff exponent = 0
  unset : ∀ exponent < place, (polynomialOf state.quotient).coeff exponent = 0

private theorem polynomialOf_setIfInBounds {quotient : Array F} {place : ℕ}
    (inside : place < quotient.size) (unset : (polynomialOf quotient).coeff place = 0)
    (factor : F) : polynomialOf (quotient.setIfInBounds place factor) =
      polynomialOf quotient + C factor * X ^ place := by
  ext exponent
  rw [coeff_add, coeff_C_mul_X_pow]
  by_cases hplace : exponent = place
  · rw [hplace, unset, if_pos rfl, zero_add]
    simp [Array.getD_eq_getD_getElem?, inside]
  · rw [if_neg hplace, add_zero, coeff_polynomialOf, coeff_polynomialOf]
    simp [Array.getD_eq_getD_getElem?, Ne.symm hplace]

/-- A step clears the entry that it looks at. -/
private theorem Invariant.divideStep (leads : terms.Leads degree leading) {place : ℕ}
    (inside : place < dividend.size - degree) {state : Division F}
    (invariant : Invariant terms dividend degree (place + 1) state) :
    Invariant terms dividend degree place (divideStep terms degree leading⁻¹ place state) := by
  have hentry : state.remainder.getD (place + degree) 0 =
      (polynomialOf state.remainder).coeff (place + degree) := (coeff_polynomialOf _ _).symm
  rw [Terms.divideStep, hentry]
  by_cases hzero : (polynomialOf state.remainder).coeff (place + degree) * leading⁻¹ = 0
  · simp only [if_pos hzero]
    have hentryZero := (mul_eq_zero.mp hzero).resolve_right (inv_ne_zero leads.ne_zero)
    refine ⟨invariant.equation, invariant.size_quotient, invariant.size_remainder, ?_, ?_⟩
    · intro exponent hle
      by_cases hequal : exponent = place + degree
      · rw [hequal, hentryZero]
      · exact invariant.cleared exponent (by omega)
    · intro exponent hlt
      exact invariant.unset exponent (by omega)
  · simp only [if_neg hzero]
    have hinside : ∀ term ∈ terms, term.1 + place < state.remainder.size := by
      intro term hmem
      have hle := leads.exponent_le hmem
      rw [invariant.size_remainder]
      omega
    have hquotient : place < state.quotient.size := by rwa [invariant.size_quotient]
    have hunset := invariant.unset place (Nat.lt_succ_self _)
    refine ⟨?_, ?_, ?_, ?_, ?_⟩
    · rw [polynomialOf_setIfInBounds hquotient hunset, polynomialOf_accumulate hinside,
        invariant.equation, C_neg]
      ring
    · rw [Array.size_setIfInBounds, invariant.size_quotient]
    · rw [size_accumulate, invariant.size_remainder]
    · intro exponent hle
      rw [polynomialOf_accumulate hinside, coeff_add, mul_assoc, coeff_C_mul, coeff_X_pow_mul',
        if_pos (by omega)]
      by_cases hequal : exponent = place + degree
      · rw [hequal, Nat.add_sub_cancel_left, leads.coeff_degree, neg_mul, mul_assoc,
          inv_mul_cancel₀ leads.ne_zero, mul_one, add_neg_cancel]
      · rw [leads.coeff_of_lt (by omega), mul_zero, add_zero,
          invariant.cleared exponent (by omega)]
    · intro exponent hlt
      rw [polynomialOf_setIfInBounds hquotient hunset, coeff_add, coeff_C_mul_X_pow,
        if_neg (by omega), add_zero, invariant.unset exponent (by omega)]

private theorem Invariant.divideSteps (leads : terms.Leads degree leading) {count : ℕ}
    (inside : count ≤ dividend.size - degree) {state : Division F}
    (invariant : Invariant terms dividend degree count state) :
    Invariant terms dividend degree 0 (divideSteps terms degree leading⁻¹ count state) := by
  induction count generalizing state with
  | zero => exact invariant
  | succ place ih => exact ih (by omega) (invariant.divideStep leads (by omega))

private theorem polynomialOf_take {coefficients : Array F}
    (cleared : ∀ exponent ≥ degree, (polynomialOf coefficients).coeff exponent = 0) :
    polynomialOf (coefficients.take degree) = polynomialOf coefficients := by
  ext exponent
  by_cases hlow : exponent < degree
  · simp only [coeff_polynomialOf, Array.getD_eq_getD_getElem?, Array.take_eq_extract,
      Array.getElem?_extract, Nat.zero_add]
    split
    · rfl
    · rw [Array.getElem?_eq_none (by omega)]
  · rw [cleared exponent (not_lt.mp hlow), coeff_polynomialOf, Array.getD_eq_getD_getElem?,
      Array.getElem?_eq_none (by simp; omega), Option.getD_none]

/-- When all steps are done, the invariant holds below every place. -/
private theorem Leads.invariant_divideSteps (leads : terms.Leads degree leading)
    (dividend : Array F) :
    Invariant terms dividend degree 0 (divideSteps terms degree leading⁻¹ (dividend.size - degree)
      ⟨Array.replicate (dividend.size - degree) 0, dividend⟩) := by
  refine Invariant.divideSteps leads le_rfl ?_
  have hzero : polynomialOf (Array.replicate (dividend.size - degree) (0 : F)) = 0 :=
    polynomialOf_replicate_zero _
  refine ⟨by rw [hzero, mul_zero, zero_add], Array.size_replicate, rfl, ?_, ?_⟩
  · intro exponent hle
    exact (degree_lt_iff_coeff_zero _ _).mp (degree_polynomialOf_lt dividend) exponent (by omega)
  · intro exponent _
    rw [hzero, coeff_zero]

/-- The quotient has as many entries as the dividend has above the degree of the divisor. -/
theorem Leads.size_quotient (leads : terms.Leads degree leading) (dividend : Array F) :
    (terms.divide dividend).quotient.size = dividend.size - degree := by
  simp only [divide, leads.getLast?]
  by_cases hshort : dividend.size ≤ degree
  · rw [if_pos hshort, Array.size_empty, Nat.sub_eq_zero_of_le hshort]
  · rw [if_neg hshort]
    exact (leads.invariant_divideSteps dividend).size_quotient

/-- Long division: the equation, and a remainder below the degree of the divisor. -/
theorem Leads.divide_spec (leads : terms.Leads degree leading) (dividend : Array F) :
    polynomialOf dividend =
        terms.toPolynomial * polynomialOf (terms.divide dividend).quotient +
          polynomialOf (terms.divide dividend).remainder ∧
      (polynomialOf (terms.divide dividend).remainder).degree < degree := by
  have hempty : polynomialOf (#[] : Array F) = 0 := rfl
  simp only [divide, leads.getLast?]
  by_cases hshort : dividend.size ≤ degree
  · rw [if_pos hshort, hempty, mul_zero, zero_add]
    exact ⟨rfl, (degree_polynomialOf_lt _).trans_le (by exact_mod_cast hshort)⟩
  · rw [if_neg hshort]
    have hend := leads.invariant_divideSteps dividend
    rw [polynomialOf_take fun exponent hle => hend.cleared exponent (by omega)]
    refine ⟨hend.equation, ?_⟩
    rw [degree_lt_iff_coeff_zero]
    intro exponent hle
    exact hend.cleared exponent (by omega)

/-- No other quotient and remainder satisfy the equation with a remainder that short. -/
theorem Leads.divide_unique (leads : terms.Leads degree leading) {quotient remainder : F[X]}
    (equation : polynomialOf dividend = terms.toPolynomial * quotient + remainder)
    (short : remainder.degree < degree) :
    quotient = polynomialOf (terms.divide dividend).quotient ∧
      remainder = polynomialOf (terms.divide dividend).remainder := by
  obtain ⟨hequation, hshort⟩ := leads.divide_spec dividend
  have hdifference : terms.toPolynomial *
      (quotient - polynomialOf (terms.divide dividend).quotient) =
        polynomialOf (terms.divide dividend).remainder - remainder := by
    linear_combination hequation - equation
  have hdegree : (polynomialOf (terms.divide dividend).remainder - remainder).degree <
      terms.toPolynomial.degree := by
    rw [leads.degree_toPolynomial]
    exact (degree_sub_le _ _).trans_lt (max_lt hshort short)
  have hremainder := eq_zero_of_dvd_of_degree_lt ⟨_, hdifference.symm⟩ hdegree
  have hne : terms.toPolynomial ≠ 0 := by
    rw [← degree_ne_bot, leads.degree_toPolynomial]
    exact WithBot.natCast_ne_bot degree
  rw [hremainder, mul_eq_zero, or_iff_right hne] at hdifference
  exact ⟨sub_eq_zero.mp hdifference, (sub_eq_zero.mp hremainder).symm⟩

/-- If the leading coefficient is one, the remainder is the one of the ring. -/
theorem Leads.polynomialOf_remainder (leads : terms.Leads degree 1) (dividend : Array F) :
    polynomialOf (terms.divide dividend).remainder =
      polynomialOf dividend %ₘ terms.toPolynomial := by
  obtain ⟨hequation, hdegree⟩ := leads.divide_spec dividend
  rw [← leads.degree_toPolynomial] at hdegree
  exact (div_modByMonic_unique _ _ leads.monic_toPolynomial
    ⟨(add_comm _ _).trans hequation.symm, hdegree⟩).2.symm

theorem Leads.degree_modByMonic_lt (leads : terms.Leads degree 1) (p : F[X]) :
    (p %ₘ terms.toPolynomial).degree < degree := by
  rw [← leads.degree_toPolynomial]
  exact Polynomial.degree_modByMonic_lt p leads.monic_toPolynomial

end Division

end Terms
end OracleProofs

/-
# Words over an affine subspace

The points of a subspace are the shift plus the combinations of the basis, and an
index picks each of them once. Adding a vector to the basis doubles the points:
those of the lower half stay and those of the upper half are moved by the vector.
On the lower half the polynomial of the floor is zero, on the upper half it has
the image of the vector as its only value. This is why a division by it splits
the values of a polynomial into those of two shorter ones, and why the two halves
can be joined again.
-/

import Mathlib
import OracleProofs.Proofs.Domain.Tower
import OracleProofs.Proofs.Polynomial.Vanishing

namespace OracleProofs
namespace AffineSubspace

open Polynomial

variable {F : Type} [FiniteField F] [LawfulField F]

section Points

omit [FiniteField F] [LawfulField F] in
private theorem two_pow_length_append (basis : List F) (vector : F) :
    2 ^ (basis ++ [vector]).length = 2 ^ basis.length + 2 ^ basis.length := by
  rw [List.length_append, List.length_singleton, pow_succ, mul_two]

omit [FiniteField F] [LawfulField F] in
/-- An index lies in the lower or in the upper half. -/
private theorem lower_or_upper {basis : List F} {vector : F} {index : ℕ}
    (inside : index < 2 ^ (basis ++ [vector]).length) :
    index < 2 ^ basis.length ∨
      ∃ rest < 2 ^ basis.length, index = 2 ^ basis.length + rest := by
  rw [two_pow_length_append] at inside
  by_cases hlow : index < 2 ^ basis.length
  · exact .inl hlow
  · exact .inr ⟨index - 2 ^ basis.length, by omega, by omega⟩

omit [LawfulField F] in
/-- The lower half of the points needs the earlier vectors only. -/
theorem pick_append_of_lt (basis : List F) (vector start : F) {index : ℕ}
    (inside : index < 2 ^ basis.length) :
    pick (basis ++ [vector]) start index = pick basis start index := by
  induction basis generalizing start index with
  | nil =>
      obtain rfl : index = 0 := by simpa using inside
      rfl
  | cons first rest ih =>
      rw [List.length_cons, pow_succ] at inside
      exact ih _ (by omega)

/-- The upper half is the lower one moved by the last vector. -/
theorem pick_append_add (basis : List F) (vector start : F) {index : ℕ}
    (inside : index < 2 ^ basis.length) :
    pick (basis ++ [vector]) start (2 ^ basis.length + index) =
      pick basis (start + vector) index := by
  induction basis generalizing start index with
  | nil =>
      obtain rfl : index = 0 := by simpa using inside
      rfl
  | cons first rest ih =>
      have hlength : 2 ^ (first :: rest).length = 2 * 2 ^ rest.length := by
        rw [List.length_cons, pow_succ']
      rw [hlength] at inside ⊢
      have hbit : (2 * 2 ^ rest.length + index) % 2 = index % 2 := by omega
      have hhigher : (2 * 2 ^ rest.length + index) / 2 = 2 ^ rest.length + index / 2 := by omega
      rw [List.cons_append, pick, pick, hbit, hhigher, ih _ (by omega)]
      by_cases hodd : index % 2 = 1
      · rw [if_pos hodd, if_pos hodd, add_right_comm]
      · rw [if_neg hodd, if_neg hodd]

/-- Moving the start by a vector moves every point by it. -/
theorem pick_add_start (basis : List F) (start vector : F) (index : ℕ) :
    pick basis (start + vector) index = pick basis start index + vector := by
  induction basis generalizing start index with
  | nil => rfl
  | cons first rest ih =>
      rw [pick, pick]
      by_cases hodd : index % 2 = 1
      · rw [if_pos hodd, if_pos hodd, add_right_comm, ih]
      · rw [if_neg hodd, if_neg hodd, ih]

/-- The points that indices pick are the sums of the start and the combinations. -/
theorem exists_pick_eq_iff (basis : List F) (start a : F) :
    (∃ index < 2 ^ basis.length, pick basis start index = a) ↔
      a - start ∈ combinations basis := by
  induction basis using List.reverseRecOn generalizing start with
  | nil =>
      rw [mem_combinations_nil, sub_eq_zero]
      constructor
      · rintro ⟨index, -, rfl⟩
        rfl
      · rintro rfl
        exact ⟨0, Nat.one_pos, rfl⟩
  | append_singleton basis vector ih =>
      rw [mem_combinations_append, sub_sub, ← ih, ← ih]
      constructor
      · rintro ⟨index, hindex, rfl⟩
        rcases lower_or_upper hindex with hlow | ⟨rest, hrest, rfl⟩
        · exact .inl ⟨index, hlow, (pick_append_of_lt basis vector start hlow).symm⟩
        · exact .inr ⟨rest, hrest, (pick_append_add basis vector start hrest).symm⟩
      · rw [two_pow_length_append]
        rintro (⟨index, hindex, rfl⟩ | ⟨index, hindex, rfl⟩)
        · exact ⟨index, by omega, pick_append_of_lt basis vector start hindex⟩
        · exact ⟨2 ^ basis.length + index, by omega, pick_append_add basis vector start hindex⟩

end Points

section Floors

variable [CharP F 2] {tower : Tower F} {basis : List F}

/-- Moving the zeros moves the argument of the values. -/
theorem evaluate_moved {p : Linearized F} {vectors : List F} (on : p.VanishesOn vectors)
    (shift a : F) : (moved p shift).evaluate a = p.evaluate (a - shift) := by
  have hvalue : (moved p shift).evaluate a =
      -p.evaluate shift + Linearized.evaluateLinear p.linear a := rfl
  rw [on.evaluate_sub_point, hvalue, on.evaluate_eq a]
  ring

/-- The moved polynomial is zero at the points that start from the shift. -/
theorem evaluate_moved_pick {p : Linearized F} (on : p.VanishesOn basis) (shift : F) {index : ℕ}
    (inside : index < 2 ^ basis.length) :
    (moved p shift).evaluate (pick basis shift index) = 0 := by
  rw [evaluate_moved on, on.zero_iff]
  exact (exists_pick_eq_iff basis shift _).mp ⟨index, inside, rfl⟩

/-- At the points moved by a vector it has the image of the vector. -/
theorem evaluate_moved_pick_add {p : Linearized F} (on : p.VanishesOn basis) (shift vector : F)
    {index : ℕ} (inside : index < 2 ^ basis.length) :
    (moved p shift).evaluate (pick basis (shift + vector) index) = p.evaluate vector := by
  have hzero := evaluate_moved_pick on (shift + vector) inside
  rw [evaluate_moved on, ← sub_sub, on.evaluate_sub_point, sub_eq_zero] at hzero
  rw [evaluate_moved on, hzero]

/-- Different indices pick different points. -/
theorem pick_injOn (spans : tower.Spans basis) (start : F) :
    Set.InjOn (pick basis start) (Set.Iio (2 ^ basis.length)) := by
  induction spans generalizing start with
  | ground =>
      intro first hfirst second hsecond _
      rw [List.length_nil, pow_zero, Set.mem_Iio, Nat.lt_one_iff] at hfirst hsecond
      rw [hfirst, hsecond]
  | @raise tower higher basis vector below raised ih =>
      obtain ⟨himage, -⟩ := Tower.raise?_eq_some_iff.mp raised
      have hapart {low high : ℕ} (hlow : low < 2 ^ basis.length) (hhigh : high < 2 ^ basis.length) :
          pick basis start low ≠ pick basis (start + vector) high := by
        intro hequal
        have hzero := evaluate_moved_pick below.vanishesOn start hlow
        rw [hequal, evaluate_moved_pick_add below.vanishesOn start vector hhigh] at hzero
        exact himage hzero
      intro first hfirst second hsecond hequal
      rcases lower_or_upper hfirst with hlow | ⟨rest, hrest, rfl⟩
      · rw [pick_append_of_lt basis vector start hlow] at hequal
        rcases lower_or_upper hsecond with hother | ⟨other, hother, rfl⟩
        · rw [pick_append_of_lt basis vector start hother] at hequal
          exact ih start hlow hother hequal
        · rw [pick_append_add basis vector start hother] at hequal
          exact absurd hequal (hapart hlow hother)
      · rw [pick_append_add basis vector start hrest] at hequal
        rcases lower_or_upper hsecond with hother | ⟨other, hother, rfl⟩
        · rw [pick_append_of_lt basis vector start hother] at hequal
          exact absurd hequal.symm (hapart hother hrest)
        · rw [pick_append_add basis vector start hother] at hequal
          rw [ih (start + vector) hrest hother hequal]

end Floors

section Values

/-- The values of a polynomial at the points that a basis reaches from a start. -/
noncomputable def valuesOver (basis : List F) (start : F) (p : F[X]) : Array F :=
  Array.ofFn fun index : Fin (2 ^ basis.length) => p.eval (pick basis start index)

@[simp]
theorem size_valuesOver (basis : List F) (start : F) (p : F[X]) :
    (valuesOver basis start p).size = 2 ^ basis.length :=
  Array.size_ofFn

theorem getElem?_valuesOver (basis : List F) (start : F) (p : F[X]) {index : ℕ}
    (inside : index < 2 ^ basis.length) :
    (valuesOver basis start p)[index]? = some (p.eval (pick basis start index)) := by
  simp [valuesOver, inside]

theorem valuesOver_eq_iff (basis : List F) (start : F) (p q : F[X]) :
    valuesOver basis start p = valuesOver basis start q ↔
      ∀ index < 2 ^ basis.length,
        p.eval (pick basis start index) = q.eval (pick basis start index) := by
  constructor
  · intro hequal index hindex
    have hentry := congrArg (·[index]?) hequal
    simpa only [getElem?_valuesOver _ _ _ hindex, Option.some.injEq] using hentry
  · intro hvalues
    rw [valuesOver, valuesOver]
    congr 1
    funext index
    exact hvalues index index.isLt

/-- The values at the points of the lower half, then those at the points of the upper half. -/
theorem valuesOver_append (basis : List F) (vector start : F) (p : F[X]) :
    valuesOver (basis ++ [vector]) start p =
      valuesOver basis start p ++ valuesOver basis (start + vector) p := by
  apply Array.ext (by rw [Array.size_append, size_valuesOver, size_valuesOver, size_valuesOver,
    two_pow_length_append])
  intro index hleft hright
  rw [size_valuesOver] at hleft
  rcases lower_or_upper hleft with hlow | ⟨rest, hrest, rfl⟩
  · rw [Array.getElem_append_left (by rwa [size_valuesOver])]
    simp [valuesOver, pick_append_of_lt basis vector start hlow]
  · rw [Array.getElem_append_right (by rw [size_valuesOver]; omega)]
    simp [valuesOver, pick_append_add basis vector start hrest]

end Values

section Transforms

omit [LawfulField F] in
@[simp]
theorem size_resize (length : ℕ) (coefficients : Array F) :
    (resize length coefficients).size = length :=
  Array.size_ofFn

theorem polynomialOf_resize {length : ℕ} {coefficients : Array F}
    (short : (polynomialOf coefficients).degree < length) :
    polynomialOf (resize length coefficients) = polynomialOf coefficients := by
  have hentries := polynomialOf_ofFn_coeff short
  simp only [coeff_polynomialOf] at hentries
  exact hentries

variable [CharP F 2] {tower : Tower F} {basis : List F}

/-- Division by the polynomial of a floor splits the values: the lower half has those of the
remainder, the upper half those of the remainder plus the image times the quotient. -/
theorem valuesOver_mul_add {p : Linearized F} (on : p.VanishesOn basis) (shift vector : F)
    (quotient remainder : F[X]) :
    valuesOver (basis ++ [vector]) shift
        ((moved p shift).terms.toPolynomial * quotient + remainder) =
      valuesOver basis shift remainder ++
        valuesOver basis (shift + vector) (remainder + C (p.evaluate vector) * quotient) := by
  rw [valuesOver_append]
  congr 1
  · rw [valuesOver_eq_iff]
    intro index hindex
    rw [eval_add, eval_mul, Linearized.eval_toPolynomial_terms,
      evaluate_moved_pick on shift hindex, zero_mul, zero_add]
  · rw [valuesOver_eq_iff]
    intro index hindex
    rw [eval_add, eval_mul, Linearized.eval_toPolynomial_terms,
      evaluate_moved_pick_add on shift vector hindex, eval_add, eval_mul, eval_C, add_comm]

omit [CharP F 2] in
/-- What goes to the upper half is the remainder plus the image times the quotient. -/
private theorem polynomialOf_upper {half : ℕ} {remainder quotient : Array F}
    (short_remainder : (polynomialOf remainder).degree < half)
    (short_quotient : (polynomialOf quotient).degree < half) (image : F) :
    polynomialOf (Array.zipWith (fun low high => low + image * high) (resize half remainder)
        (resize half quotient)) =
      polynomialOf remainder + C image * polynomialOf quotient := by
  rw [polynomialOf_zipWith (fun low high => by rw [one_mul]) (by simp), C_1, one_mul,
    polynomialOf_resize short_remainder, polynomialOf_resize short_quotient]

/-- Going down the floors lists the values of a polynomial with at most as many coefficients as
there are points. -/
theorem descend_eq_valuesOver (spans : tower.Spans basis) (shift : F) {coefficients : Array F}
    (short : coefficients.size ≤ 2 ^ basis.length) :
    descend tower.floors shift coefficients =
      valuesOver basis shift (polynomialOf coefficients) := by
  -- on the tower as it was raised; the upper half starts from another shift
  induction spans generalizing shift coefficients with
  | ground =>
      refine Array.ext (by simp [descend, Tower.ground]) fun index hleft hright => ?_
      simp [descend, Tower.ground, valuesOver, pick, eval_polynomialOf_eq_sum short]
  | @raise tower higher basis vector below raised ih =>
      have hon := below.vanishesOn
      obtain ⟨-, rfl⟩ := Tower.raise?_eq_some_iff.mp raised
      have hleads : (moved tower.vanishing shift).terms.Leads (2 ^ basis.length) 1 :=
        hon.leads_terms_withConstant _
      obtain ⟨hequation, hremainder⟩ := hleads.divide_spec coefficients
      have hquotient := degree_polynomialOf_lt
        ((moved tower.vanishing shift).terms.divide coefficients).quotient
      rw [hleads.size_quotient coefficients] at hquotient
      have hhalf : coefficients.size - 2 ^ basis.length ≤ 2 ^ basis.length := by
        rw [two_pow_length_append] at short
        omega
      rw [descend]
      simp only [below.length_floors, Nat.one_shiftLeft]
      rw [ih shift (by simp), ih (shift + vector) (by simp), polynomialOf_resize hremainder,
        polynomialOf_upper hremainder (hquotient.trans_le (Nat.cast_le.mpr hhalf)), hequation,
        valuesOver_mul_add hon]

omit [CharP F 2] in
/-- The image times the quotient is the difference of the halves. -/
private theorem C_mul_polynomialOf_zipWith {image : F} (nonzero : image ≠ 0)
    {upper lower : Array F} (size : upper.size = lower.size) :
    C image * polynomialOf (Array.zipWith (fun high low => (high - low) * image⁻¹) upper lower) =
      polynomialOf upper - polynomialOf lower := by
  have hlinear (high low : F) : (high - low) * image⁻¹ = image⁻¹ * high + -image⁻¹ * low := by ring
  rw [polynomialOf_zipWith hlinear size, C_neg, neg_mul, ← sub_eq_add_neg, ← mul_sub, ← mul_assoc,
    ← C_mul, mul_inv_cancel₀ nonzero, C_1, one_mul]

omit [CharP F 2] in
/-- The joined coefficients are those of the product with the quotient plus the lower half. -/
private theorem polynomialOf_joined {terms : Terms F} {half : ℕ} (leads : terms.Leads half 1)
    {quotient lower : Array F} (size_quotient : quotient.size = half)
    (size_lower : lower.size = half) :
    polynomialOf (Array.zipWith (· + ·) (resize (2 * half) (terms.multiply quotient))
        (resize (2 * half) lower)) =
      terms.toPolynomial * polynomialOf quotient + polynomialOf lower := by
  have hquotient := degree_polynomialOf_lt quotient
  have hlower := degree_polynomialOf_lt lower
  rw [size_quotient] at hquotient
  rw [size_lower] at hlower
  have hproduct : (polynomialOf (terms.multiply quotient)).degree < (2 * half : ℕ) := by
    rw [leads.polynomialOf_multiply, degree_mul, leads.degree_toPolynomial, two_mul, Nat.cast_add]
    exact WithBot.add_lt_add_left (WithBot.natCast_ne_bot half) hquotient
  have hlonger : (polynomialOf lower).degree < (2 * half : ℕ) :=
    hlower.trans_le (Nat.cast_le.mpr (by omega))
  rw [polynomialOf_zipWith (fun x y => by rw [one_mul, one_mul]) (by simp), C_1, one_mul, one_mul,
    polynomialOf_resize hproduct, polynomialOf_resize hlonger, leads.polynomialOf_multiply]

omit [LawfulField F] [CharP F 2] in
theorem size_ascend (floors : List (Floor F)) (shift : F) (values : Array F) :
    (ascend floors shift values).size = 2 ^ floors.length := by
  cases floors with
  | nil => rfl
  | cons floor below =>
      simp [ascend, Nat.one_shiftLeft, pow_succ']

/-- Going up the floors finds coefficients with the given values. -/
theorem valuesOver_ascend (spans : tower.Spans basis) (shift : F) {values : Array F}
    (size : values.size = 2 ^ basis.length) :
    valuesOver basis shift (polynomialOf (ascend tower.floors shift values)) = values := by
  induction spans generalizing shift values with
  | ground =>
      refine Array.ext (by rw [size_valuesOver, size]) fun index hleft hright => ?_
      obtain rfl : index = 0 := by simpa using hleft
      simp [ascend, Tower.ground, valuesOver, pick, polynomialOf, hright]
  | @raise tower higher basis vector below raised ih =>
      have hon := below.vanishesOn
      obtain ⟨himage, rfl⟩ := Tower.raise?_eq_some_iff.mp raised
      have hleads : (moved tower.vanishing shift).terms.Leads (2 ^ basis.length) 1 :=
        hon.leads_terms_withConstant _
      have hsize (start : F) (part : Array F) :
          (ascend tower.floors start part).size = 2 ^ basis.length := by
        rw [size_ascend, below.length_floors]
      rw [two_pow_length_append] at size
      have hlower := @ih shift (values.take (2 ^ basis.length)) (by simp [size])
      have hupper := @ih (shift + vector) (values.drop (2 ^ basis.length)) (by simp [size])
      rw [ascend]
      simp only [below.length_floors, Nat.one_shiftLeft]
      rw [polynomialOf_joined hleads (by rw [Array.size_zipWith, hsize, hsize, min_self])
        (hsize _ _), valuesOver_mul_add hon, C_mul_polynomialOf_zipWith himage
        ((hsize _ _).trans (hsize _ _).symm), add_sub_cancel, hlower, hupper]
      simp

end Transforms

section Words

omit [LawfulField F] in
theorem size_eq (space : AffineSubspace F) : space.size = 2 ^ space.dimension :=
  Nat.one_shiftLeft _

/-- Different indices have different points. -/
theorem element_injOn (space : AffineSubspace F) :
    Set.InjOn space.element (Set.Iio space.size) := by
  have := space.charTwo
  rw [size_eq]
  exact pick_injOn space.spans_tower.1 space.shift

theorem vanishesOn_tower (space : AffineSubspace F) :
    space.tower.vanishing.VanishesOn space.basis := by
  have := space.charTwo
  exact space.spans_tower.1.vanishesOn

theorem leads_terms_vanishing (space : AffineSubspace F) :
    space.vanishing.terms.Leads space.size 1 := by
  rw [size_eq]
  exact space.vanishesOn_tower.leads_terms_withConstant _

/-- The polynomial of the subspace is zero at its points and nowhere else. -/
theorem evaluate_vanishing_eq_zero_iff (space : AffineSubspace F) (a : F) :
    space.vanishing.evaluate a = 0 ↔ ∃ index < space.size, space.element index = a := by
  have := space.charTwo
  have hmoved := evaluate_moved space.vanishesOn_tower space.shift a
  rw [size_eq]
  exact (hmoved ▸ space.vanishesOn_tower.zero_iff _).trans
    (exists_pick_eq_iff space.basis space.shift a).symm

theorem eval_toPolynomial_terms_vanishing (space : AffineSubspace F) {index : ℕ}
    (inside : index < space.size) :
    space.vanishing.terms.toPolynomial.eval (space.element index) = 0 :=
  (Linearized.eval_toPolynomial_terms _ _).trans
    ((space.evaluate_vanishing_eq_zero_iff _).mpr ⟨index, inside, rfl⟩)

/-- The values of a polynomial at all points in order. -/
noncomputable def valuesOf (space : AffineSubspace F) (p : F[X]) : Array F :=
  valuesOver space.basis space.shift p

theorem size_valuesOf (space : AffineSubspace F) (p : F[X]) :
    (space.valuesOf p).size = space.size := by
  rw [valuesOf, size_valuesOver, size_eq, dimension]

theorem getElem?_valuesOf (space : AffineSubspace F) (p : F[X]) {index : ℕ}
    (inside : index < space.size) :
    (space.valuesOf p)[index]? = some (p.eval (space.element index)) :=
  getElem?_valuesOver _ _ _ (by rwa [size_eq] at inside)

theorem valuesOf_eq_iff (space : AffineSubspace F) (p q : F[X]) :
    space.valuesOf p = space.valuesOf q ↔
      ∀ index < space.size, p.eval (space.element index) = q.eval (space.element index) := by
  rw [size_eq]
  exact valuesOver_eq_iff _ _ p q

/-- Division by the polynomial of the subspace changes no value. -/
theorem valuesOf_modByMonic (space : AffineSubspace F) (p : F[X]) :
    space.valuesOf (p %ₘ space.vanishing.terms.toPolynomial) = space.valuesOf p := by
  rw [valuesOf_eq_iff]
  intro index hindex
  exact eval₂_modByMonic_eq_self_of_root (space.eval_toPolynomial_terms_vanishing hindex)

/-- A polynomial with at most as many coefficients as there are points is determined by its
values. -/
theorem valuesOf_inj (space : AffineSubspace F) {p q : F[X]} (hp : p.degree < space.size)
    (hq : q.degree < space.size) : space.valuesOf p = space.valuesOf q ↔ p = q := by
  constructor
  · intro hequal
    refine eq_of_degrees_lt_of_eval_index_eq (v := space.element) (Finset.range space.size) ?_
      (by rwa [Finset.card_range]) (by rwa [Finset.card_range]) ?_
    · rw [Finset.coe_range]
      exact space.element_injOn
    · intro index hindex
      exact (space.valuesOf_eq_iff p q).mp hequal index (Finset.mem_range.mp hindex)
  · rintro rfl
    rfl

/-- The values are those of the polynomial, however many coefficients it has. -/
theorem evaluateAll_eq_valuesOf (space : AffineSubspace F) (coefficients : Array F) :
    space.evaluateAll coefficients = space.valuesOf (polynomialOf coefficients) := by
  have := space.charTwo
  have hdescend {reduced : Array F} (short : (polynomialOf reduced).degree < space.size) :
      descend space.tower.floors space.shift (resize space.size reduced) =
        space.valuesOf (polynomialOf reduced) := by
    rw [descend_eq_valuesOver space.spans_tower.1 space.shift
      (by rw [size_resize, size_eq, dimension]), polynomialOf_resize short, valuesOf]
  rw [evaluateAll]
  by_cases hshort : coefficients.size ≤ space.size
  · rw [if_pos hshort]
    exact hdescend ((degree_polynomialOf_lt _).trans_le (Nat.cast_le.mpr hshort))
  · have hleads := space.leads_terms_vanishing
    rw [if_neg hshort]
    refine (hdescend (hleads.divide_spec coefficients).2).trans ?_
    rw [hleads.polynomialOf_remainder, valuesOf_modByMonic]

theorem size_interpolate (space : AffineSubspace F) (values : Array F) :
    (space.interpolate values).size = space.size := by
  rw [interpolate, size_ascend, space.spans_tower.1.length_floors, size_eq, dimension]

/-- The interpolated polynomial has the given values. -/
theorem valuesOf_interpolate (space : AffineSubspace F) {values : Array F}
    (size : values.size = space.size) :
    space.valuesOf (polynomialOf (space.interpolate values)) = values := by
  have := space.charTwo
  exact valuesOver_ascend space.spans_tower.1 space.shift (by rw [size, size_eq, dimension])

/-- Interpolation leaves what a division by the polynomial of the subspace leaves. -/
theorem interpolate_valuesOf (space : AffineSubspace F) (p : F[X]) :
    polynomialOf (space.interpolate (space.valuesOf p)) =
      p %ₘ space.vanishing.terms.toPolynomial := by
  have hremainder := space.leads_terms_vanishing.degree_modByMonic_lt p
  have hinterpolated := degree_polynomialOf_lt (space.interpolate (space.valuesOf p))
  rw [size_interpolate] at hinterpolated
  rw [← space.valuesOf_inj hinterpolated hremainder, valuesOf_modByMonic,
    space.valuesOf_interpolate (space.size_valuesOf p)]

/-- The points `5`, `7`, `6` and `4` of the binary field. -/
def fourPoints : AffineSubspace BinaryField where
  basis := [⟨2⟩, ⟨3⟩]
  shift := ⟨5⟩
  tower :=
    { floors :=
        [⟨⟨3⟩, ⟨⟨0⟩, [⟨2⟩, ⟨1⟩]⟩, ⟨3⟩, ⟨61446⟩⟩, ⟨⟨2⟩, ⟨⟨0⟩, [⟨1⟩]⟩, ⟨2⟩, ⟨34821⟩⟩]
      vanishing := ⟨⟨0⟩, [⟨6⟩, ⟨7⟩, ⟨1⟩]⟩ }
  isTower := by decide +kernel

/-- More coefficients than there are points. -/
def fiveCoefficients : Array BinaryField := #[⟨1⟩, ⟨0⟩, ⟨4⟩, ⟨0⟩, ⟨7⟩]

/-- The forward transform has one value for each point, the one of the polynomial there. -/
theorem evaluateAll_exact (space : AffineSubspace F) (coefficients : Array F) :
    (space.evaluateAll coefficients).size = 2 ^ space.dimension ∧
      ∀ index < 2 ^ space.dimension, (space.evaluateAll coefficients)[index]? =
        some (∑ exponent ∈ Finset.range coefficients.size,
          coefficients.getD exponent 0 * space.element index ^ exponent) := by
  rw [evaluateAll_eq_valuesOf, ← size_eq]
  refine ⟨space.size_valuesOf _, fun index hindex => ?_⟩
  rw [getElem?_valuesOf space _ hindex, eval_polynomialOf_eq_sum le_rfl]

theorem evaluateAll_at_four_points :
    (fourPoints.evaluateAll fiveCoefficients).size = 4 ∧
      (fourPoints.evaluateAll fiveCoefficients)[3]? = some ⟨1857⟩ := by
  obtain ⟨hsize, hvalues⟩ := evaluateAll_exact fourPoints fiveCoefficients
  exact ⟨hsize, (hvalues 3 (by decide)).trans (by decide +kernel)⟩

/-- The two transforms undo each other, up to multiples of the polynomial of the subspace. Values
are refused exactly if there is not one for each point. -/
theorem transforms_inverse (space : AffineSubspace F) :
    (∀ values error, space.interpolate? values = .error error ↔
        values.size ≠ 2 ^ space.dimension ∧
          error = .evaluationCount (2 ^ space.dimension) values.size) ∧
      (∀ values : Array F, values.size = 2 ^ space.dimension →
        ∃ coefficients, space.interpolate? values = .ok coefficients ∧
          coefficients.size = 2 ^ space.dimension ∧ space.evaluateAll coefficients = values) ∧
      ∀ coefficients, ∃ remainder,
        space.interpolate? (space.evaluateAll coefficients) = .ok remainder ∧
          remainder.size = 2 ^ space.dimension ∧
          polynomialOf remainder =
            polynomialOf coefficients %ₘ space.vanishing.toDense.toPolynomial := by
  rw [VanishingPolynomial.toPolynomial_toDense space.leads_terms_vanishing, ← size_eq]
  refine ⟨fun values error => ?_, fun values hsize => ?_, fun coefficients => ?_⟩
  · rw [interpolate?]
    by_cases hsize : values.size = space.size
    · rw [if_pos hsize]
      simp [hsize]
    · rw [if_neg hsize]
      simp [hsize, eq_comm]
  · refine ⟨space.interpolate values, if_pos hsize, space.size_interpolate values, ?_⟩
    rw [evaluateAll_eq_valuesOf, space.valuesOf_interpolate hsize]
  · rw [evaluateAll_eq_valuesOf]
    exact ⟨_, if_pos (space.size_valuesOf _), space.size_interpolate _,
      space.interpolate_valuesOf _⟩

/-- Three values are refused, four are met, and of five coefficients four are left. -/
theorem transforms_inverse_at_four_points :
    fourPoints.interpolate? #[⟨1⟩, ⟨2⟩, ⟨3⟩] = .error (.evaluationCount 4 3) ∧
      (∃ coefficients, fourPoints.interpolate? #[⟨1⟩, ⟨2⟩, ⟨3⟩, ⟨4⟩] = .ok coefficients ∧
        fourPoints.evaluateAll coefficients = #[⟨1⟩, ⟨2⟩, ⟨3⟩, ⟨4⟩]) ∧
      fourPoints.interpolate? (fourPoints.evaluateAll fiveCoefficients) =
        .ok #[⟨1561⟩, ⟨18⟩, ⟨17⟩, ⟨0⟩] ∧
      polynomialOf #[⟨1561⟩, ⟨18⟩, ⟨17⟩, ⟨0⟩] =
        polynomialOf fiveCoefficients %ₘ fourPoints.vanishing.toDense.toPolynomial := by
  obtain ⟨hrefused, hvalues, hcoefficients⟩ := transforms_inverse fourPoints
  obtain ⟨coefficients, hok, -, hmet⟩ := hvalues #[⟨1⟩, ⟨2⟩, ⟨3⟩, ⟨4⟩] rfl
  obtain ⟨remainder, hremainder, -, hpolynomial⟩ := hcoefficients fiveCoefficients
  have hcomputed : fourPoints.interpolate? (fourPoints.evaluateAll fiveCoefficients) =
      .ok #[⟨1561⟩, ⟨18⟩, ⟨17⟩, ⟨0⟩] := by decide +kernel
  obtain rfl : _ = remainder := Except.ok.inj (hcomputed.symm.trans hremainder)
  exact ⟨(hrefused _ _).mpr ⟨by decide, rfl⟩, ⟨coefficients, hok, hmet⟩, hcomputed, hpolynomial⟩

end Words
end AffineSubspace
end OracleProofs

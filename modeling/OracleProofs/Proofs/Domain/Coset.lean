/-
# Words over a coset

A word over a coset is the list of the values of a polynomial, in the order of
the indices or, as words are stored, with the indices bit-reversed. Evaluation
produces the one and interpolation undoes it, so every word with one value for
each point belongs to exactly one polynomial with fewer coefficients than points.

The cosets of one shift form a chain: the points of a smaller one are among those
of a larger one, and raising all points to a power of two leads from a coset to
one of smaller dimension. In bit-reversed order the points with one image are
neighbours.
-/

import Mathlib
import OracleProofs.Domain.Coset
import OracleProofs.Proofs.Binary.Reversal
import OracleProofs.Proofs.Domain.Transform

namespace OracleProofs
namespace Coset

open Polynomial

variable {F : Type} [FiniteField F]

theorem ext {first second : Coset F} (dimension : first.dimension = second.dimension)
    (shift : first.shift = second.shift) : first = second := by
  cases first
  cases second
  cases dimension
  cases shift
  rfl

theorem size_eq (coset : Coset F) : coset.size = 2 ^ coset.dimension :=
  Nat.one_shiftLeft _

theorem size_pos (coset : Coset F) : 0 < coset.size := by
  rw [size_eq]
  positivity

/-- A coset whose size is a word has few dimensions. -/
theorem dimension_lt_wordBits {coset : Coset F} (word : coset.size < wordValues) :
    coset.dimension < wordBits := by
  rw [size_eq, wordValues, Nat.one_shiftLeft] at word
  exact (Nat.pow_lt_pow_iff_right one_lt_two).mp word

/-- The point at a position of a stored word. -/
def point (coset : Coset F) (position : ℕ) : F :=
  coset.element (reverseBits coset.dimension position)

/-- A coset is built exactly if the size is the one of its dimension. -/
theorem ofSize?_eq_ok_iff {size : ℕ} {shift : F} {coset : Coset F} :
    ofSize? size shift = .ok coset ↔ size = 2 ^ coset.dimension ∧ shift = coset.shift := by
  rw [ofSize?]
  constructor
  · intro hok
    cases hlog : exactLog2 size with
    | none =>
        rw [hlog] at hok
        cases hok
    | some dimension =>
        simp only [hlog] at hok
        by_cases hnonzero : shift ≠ 0
        · by_cases hsupported : dimension ≤ FiniteField.twoAdicity F
          · rw [dif_pos hnonzero, dif_pos hsupported] at hok
            cases hok
            exact ⟨exactLog2_eq_some_iff.mp hlog, rfl⟩
          · rw [dif_pos hnonzero, dif_neg hsupported] at hok
            cases hok
        · rw [dif_neg hnonzero] at hok
          cases hok
  · rintro ⟨rfl, rfl⟩
    rw [exactLog2_two_pow]
    simp only [dif_pos coset.shift_ne_zero, dif_pos coset.dimension_le]

/-- A size beyond the two-adicity of the field is refused. -/
theorem ofSize?_of_unsupported {dimension : ℕ} {shift : F} (nonzero : shift ≠ 0)
    (unsupported : FiniteField.twoAdicity F < dimension) :
    ofSize? (2 ^ dimension) shift = .error (.unsupportedSize (2 ^ dimension)) := by
  rw [ofSize?, exactLog2_two_pow]
  simp only [dif_pos nonzero, dif_neg (not_le.mpr unsupported)]

variable [LawfulField F]

theorem isPrimitiveRoot_generator (coset : Coset F) :
    IsPrimitiveRoot coset.generator (2 ^ coset.dimension) :=
  FiniteField.isPrimitiveRoot_rootOfUnity coset.dimension_le

theorem element_eq (coset : Coset F) (index : ℕ) :
    coset.element index = coset.shift * coset.generator ^ index := by
  rw [element, power_eq_pow]

theorem element_ne_zero (coset : Coset F) (index : ℕ) : coset.element index ≠ 0 := by
  rw [element_eq]
  exact mul_ne_zero coset.shift_ne_zero
    (pow_ne_zero _ (coset.isPrimitiveRoot_generator.ne_zero (by positivity)))

theorem shiftPower_eq (coset : Coset F) : coset.shiftPower = coset.shift ^ coset.size := by
  rw [shiftPower, power_eq_pow]

theorem shiftPower_ne_zero (coset : Coset F) : coset.shiftPower ≠ 0 := by
  rw [shiftPower_eq]
  exact pow_ne_zero _ coset.shift_ne_zero

theorem element_pow_size (coset : Coset F) (index : ℕ) :
    coset.element index ^ coset.size = coset.shiftPower := by
  rw [element_eq, shiftPower_eq, mul_pow, ← pow_mul, mul_comm index, pow_mul, size_eq,
    coset.isPrimitiveRoot_generator.pow_eq_one, one_pow, mul_one]

/-- Different indices have different points. -/
theorem element_injOn (coset : Coset F) : Set.InjOn coset.element (Set.Iio coset.size) := by
  intro first hfirst second hsecond hequal
  rw [element_eq, element_eq] at hequal
  rw [size_eq] at hfirst hsecond
  exact coset.isPrimitiveRoot_generator.pow_inj hfirst hsecond
    (mul_left_cancel₀ coset.shift_ne_zero hequal)

theorem point_ne_zero (coset : Coset F) (position : ℕ) : coset.point position ≠ 0 :=
  coset.element_ne_zero _

/-- Different positions have different points. -/
theorem point_injOn (coset : Coset F) : Set.InjOn coset.point (Set.Iio coset.size) := by
  have hmaps : Set.MapsTo (reverseBits coset.dimension) (Set.Iio (2 ^ coset.dimension))
      (Set.Iio (2 ^ coset.dimension)) := fun _ _ => reverseBits_lt _ _
  rw [size_eq]
  exact (size_eq coset ▸ coset.element_injOn).comp (reverseBits_injOn _) hmaps

section Points

/-- The set of all points. -/
def points (coset : Coset F) : Finset F :=
  (Finset.range coset.size).image coset.element

theorem sum_points (coset : Coset F) (term : F → F) :
    ∑ a ∈ coset.points, term a = ∑ index ∈ Finset.range coset.size, term (coset.element index) := by
  rw [points, Finset.sum_image]
  rw [Finset.coe_range]
  exact coset.element_injOn

omit [LawfulField F] in
theorem element_mem_points (coset : Coset F) {index : ℕ} (inside : index < coset.size) :
    coset.element index ∈ coset.points :=
  Finset.mem_image_of_mem _ (Finset.mem_range.mpr inside)

omit [LawfulField F] in
theorem point_mem_points (coset : Coset F) (position : ℕ) : coset.point position ∈ coset.points :=
  coset.element_mem_points (by
    rw [size_eq]
    exact reverseBits_lt _ _)

/-- The points are those whose power is the power of the shift. -/
theorem mem_points_iff (coset : Coset F) (a : F) :
    a ∈ coset.points ↔ a ^ coset.size = coset.shiftPower := by
  constructor
  · intro hmem
    obtain ⟨index, -, rfl⟩ := Finset.mem_image.mp hmem
    exact coset.element_pow_size index
  · intro hpower
    have hratio : (coset.shift⁻¹ * a) ^ 2 ^ coset.dimension = 1 := by
      rw [mul_pow, ← size_eq, hpower, shiftPower_eq, inv_pow,
        inv_mul_cancel₀ (pow_ne_zero _ coset.shift_ne_zero)]
    obtain ⟨index, hindex, hequal⟩ :=
      coset.isPrimitiveRoot_generator.eq_pow_of_pow_eq_one hratio
    refine Finset.mem_image.mpr ⟨index, Finset.mem_range.mpr (by rwa [size_eq]), ?_⟩
    rw [element_eq, hequal, mul_inv_cancel_left₀ coset.shift_ne_zero]

omit [LawfulField F] in
/-- Every point stands at a position of a stored word. -/
theorem exists_point_eq (coset : Coset F) {a : F} (hmem : a ∈ coset.points) :
    ∃ position < coset.size, coset.point position = a := by
  obtain ⟨index, hindex, rfl⟩ := Finset.mem_image.mp hmem
  rw [Finset.mem_range, size_eq] at hindex
  refine ⟨reverseBits coset.dimension index, by rw [size_eq]; exact reverseBits_lt _ _, ?_⟩
  rw [point, reverseBits_reverseBits hindex]

/-- The polynomial that vanishes exactly on the coset. -/
noncomputable def vanishingPolynomial (coset : Coset F) : F[X] :=
  X ^ coset.size - C coset.shiftPower

theorem evaluate_vanishing (coset : Coset F) (a : F) :
    coset.vanishing.evaluate a = coset.vanishingPolynomial.eval a := by
  rw [vanishing, VanishingPolynomial.evaluate, power_eq_pow, vanishingPolynomial, eval_sub,
    eval_pow, eval_X, eval_C]

theorem eval_vanishingPolynomial_eq_zero_iff (coset : Coset F) (a : F) :
    coset.vanishingPolynomial.eval a = 0 ↔ a ∈ coset.points := by
  rw [mem_points_iff, vanishingPolynomial, eval_sub, eval_pow, eval_X, eval_C, sub_eq_zero]

theorem monic_vanishingPolynomial (coset : Coset F) : coset.vanishingPolynomial.Monic :=
  monic_X_pow_sub_C _ coset.size_pos.ne'

/-- What is left after division by the vanishing polynomial has the same sum. -/
theorem sum_eval_modByMonic (coset : Coset F) (p : F[X]) :
    ∑ a ∈ coset.points, (p %ₘ coset.vanishingPolynomial).eval a =
      ∑ a ∈ coset.points, p.eval a := by
  apply Finset.sum_congr rfl
  intro a hmem
  exact eval₂_modByMonic_eq_self_of_root ((coset.eval_vanishingPolynomial_eq_zero_iff a).mpr hmem)

end Points

section Words

/-- The values of a polynomial in the order of the indices. -/
noncomputable def valuesOf (coset : Coset F) (p : F[X]) : Array F :=
  Array.ofFn fun index : Fin coset.size => p.eval (coset.element index)

/-- The word of a polynomial: its values in bit-reversed order. -/
noncomputable def wordOf (coset : Coset F) (p : F[X]) : Array F :=
  Array.ofFn fun position : Fin coset.size => p.eval (coset.point position)

@[simp]
theorem size_valuesOf (coset : Coset F) (p : F[X]) : (coset.valuesOf p).size = coset.size :=
  Array.size_ofFn

@[simp]
theorem size_wordOf (coset : Coset F) (p : F[X]) : (coset.wordOf p).size = coset.size :=
  Array.size_ofFn

theorem getD_valuesOf (coset : Coset F) (p : F[X]) {index : ℕ} (inside : index < coset.size)
    (fallback : F) : (coset.valuesOf p).getD index fallback = p.eval (coset.element index) := by
  simp [valuesOf, Array.getD_eq_getD_getElem?, inside]

theorem getElem?_wordOf (coset : Coset F) (p : F[X]) {position : ℕ}
    (inside : position < coset.size) :
    (coset.wordOf p)[position]? = some (p.eval (coset.point position)) := by
  simp [wordOf, inside]

theorem getD_wordOf (coset : Coset F) (p : F[X]) {position : ℕ}
    (inside : position < coset.size) (fallback : F) :
    (coset.wordOf p).getD position fallback = p.eval (coset.point position) := by
  rw [Array.getD_eq_getD_getElem?, getElem?_wordOf coset p inside, Option.getD_some]

/-- Two lists of words have the same entries at a position if the polynomials have the
same values at its point. -/
theorem map_getElem?_wordOf_eq_iff (coset : Coset F) {position : ℕ}
    (inside : position < coset.size) {α : Type} (first second : List α)
    (polynomial other : α → F[X]) :
    (first.map fun p => coset.wordOf (polynomial p)).map (·[position]?) =
        (second.map fun p => coset.wordOf (other p)).map (·[position]?) ↔
      (first.map fun p => (polynomial p).eval (coset.point position)) =
        second.map fun p => (other p).eval (coset.point position) := by
  have hentries (list : List α) (polynomial : α → F[X]) :
      (list.map fun p => coset.wordOf (polynomial p)).map (·[position]?) =
        (list.map fun p => (polynomial p).eval (coset.point position)).map some := by
    rw [List.map_map, List.map_map]
    apply List.map_congr_left
    intro p _
    exact coset.getElem?_wordOf _ inside
  rw [hentries, hentries]
  exact (List.map_injective_iff.mpr (Option.some_injective F)).eq_iff

/-- A word belongs to a polynomial if its entries are the values. -/
theorem wordOf_eq_iff (coset : Coset F) {p : F[X]} {word : Array F}
    (size : word.size = coset.size) : coset.wordOf p = word ↔
      ∀ position < coset.size, p.eval (coset.point position) = word.getD position 0 := by
  constructor
  · rintro rfl position hinside
    rw [getD_wordOf coset p hinside]
  · intro hvalues
    apply Array.ext (by rw [size_wordOf, size])
    intro position hleft hright
    have hvalue := hvalues position (by rwa [← size])
    simpa [wordOf, Array.getD_eq_getD_getElem?, hright] using hvalue

/-- A block of neighbours holds the values at their points. -/
theorem extract_wordOf (coset : Coset F) (p : F[X]) {block size : ℕ}
    (inside : (block + 1) * size ≤ coset.size) :
    (coset.wordOf p).extract (block * size) ((block + 1) * size) =
      ((List.range size).map fun offset =>
        p.eval (coset.point (block * size + offset))).toArray := by
  have hsize : ((coset.wordOf p).extract (block * size) ((block + 1) * size)).size = size := by
    rw [Array.size_extract, size_wordOf, min_eq_left inside, Nat.succ_mul, Nat.add_sub_cancel_left]
  apply Array.ext (by simp [hsize])
  intro offset hleft hright
  simp [wordOf]

/-- Operations on words are operations on values. -/
theorem zipWith_wordOf (coset : Coset F) (join : F → F → F) {p q r : F[X]}
    (values : ∀ a, r.eval a = join (p.eval a) (q.eval a)) :
    Array.zipWith join (coset.wordOf p) (coset.wordOf q) = coset.wordOf r := by
  apply Array.ext (by simp)
  intro position hleft hright
  simp [wordOf, values]

theorem reverseOrder_valuesOf (coset : Coset F) (p : F[X]) :
    reverseOrder coset.dimension (coset.valuesOf p) = coset.wordOf p := by
  rw [valuesOf, wordOf, size_eq]
  exact reverseOrder_ofFn _ fun index => p.eval (coset.element index)

theorem reverseOrder_wordOf (coset : Coset F) (p : F[X]) :
    reverseOrder coset.dimension (coset.wordOf p) = coset.valuesOf p := by
  rw [← reverseOrder_valuesOf, reverseOrder_reverseOrder (by rw [size_valuesOf, size_eq])]

theorem bitReversed?_valuesOf (coset : Coset F) (p : F[X]) :
    bitReversed? (coset.valuesOf p) = .ok (coset.wordOf p) := by
  rw [bitReversed?_of_size (by rw [size_valuesOf, size_eq]), reverseOrder_valuesOf]

theorem bitReversed?_wordOf (coset : Coset F) (p : F[X]) :
    bitReversed? (coset.wordOf p) = .ok (coset.valuesOf p) := by
  rw [bitReversed?_of_size (by rw [size_wordOf, size_eq]), reverseOrder_wordOf]

/-- The values are those of the polynomial, however many coefficients it has. -/
theorem evaluateAll_eq_valuesOf (coset : Coset F) (coefficients : Array F) :
    coset.evaluateAll coefficients = coset.valuesOf (polynomialOf coefficients) := by
  have htransform (reduced : Array F) (short : reduced.size ≤ coset.size) :
      transform coset.dimension coset.generator (stretch coset.shift reduced) =
        coset.valuesOf (polynomialOf reduced) := by
    rw [transform_eq_ofFn coset.isPrimitiveRoot_generator
      (by rwa [size_stretch, ← size_eq]), valuesOf, size_eq]
    simp only [eval_stretch, element_eq]
  rw [evaluateAll]
  by_cases hshort : coefficients.size ≤ coset.size
  · simp only [if_pos hshort]
    exact htransform _ hshort
  · simp only [if_neg hshort]
    rw [htransform _ (size_wrapAround _ _ _).le, valuesOf, valuesOf]
    simp only [eval_wrapAround coset.size_pos (coset.element_pow_size _)]

/-- Two polynomials with fewer coefficients than points are equal if they agree
at all points. -/
theorem eq_of_eval_point_eq (coset : Coset F) {p q : F[X]} (hp : p.degree < coset.size)
    (hq : q.degree < coset.size)
    (agree : ∀ position < coset.size,
      p.eval (coset.point position) = q.eval (coset.point position)) :
    p = q := by
  refine eq_of_degrees_lt_of_eval_index_eq (v := coset.point) (Finset.range coset.size) ?_
    (by rwa [Finset.card_range]) (by rwa [Finset.card_range]) ?_
  · rw [Finset.coe_range]
    exact coset.point_injOn
  · intro position hposition
    exact agree position (Finset.mem_range.mp hposition)

/-- Two polynomials with fewer coefficients than points and the same word are
equal. -/
theorem wordOf_inj (coset : Coset F) {p q : F[X]} (hp : p.degree < coset.size)
    (hq : q.degree < coset.size) : coset.wordOf p = coset.wordOf q ↔ p = q := by
  constructor
  · intro hequal
    apply coset.eq_of_eval_point_eq hp hq
    intro position hinside
    rw [← getD_wordOf coset p hinside 0, hequal, getD_wordOf coset q hinside]
  · rintro rfl
    rfl

theorem size_interpolate (coset : Coset F) {values : Array F} (size : values.size = coset.size) :
    (coset.interpolate values).size = coset.size := by
  rw [interpolate, size_stretch, size_eq,
    size_inverseTransform coset.isPrimitiveRoot_generator (by rw [size, size_eq])]

/-- The interpolated polynomial has the given values. -/
theorem valuesOf_interpolate (coset : Coset F) {values : Array F}
    (size : values.size = coset.size) :
    coset.valuesOf (polynomialOf (coset.interpolate values)) = values := by
  refine Array.ext (by rw [size_valuesOf, size]) fun index hleft hright => ?_
  rw [size_valuesOf] at hleft
  have hvalue := eval_inverseTransform coset.isPrimitiveRoot_generator
    (FiniteField.two_pow_ne_zero coset.dimension_le) (by rw [size, size_eq])
    (by rwa [size_eq] at hleft)
  simp only [valuesOf, Array.getElem_ofFn]
  rw [interpolate, eval_stretch, element_eq,
    inv_mul_cancel_left₀ coset.shift_ne_zero, hvalue]
  simp [Array.getD_eq_getD_getElem?, hright]

theorem degree_interpolate_lt (coset : Coset F) {values : Array F}
    (size : values.size = coset.size) :
    (polynomialOf (coset.interpolate values)).degree < coset.size := by
  rw [← size_interpolate coset size]
  exact degree_polynomialOf_lt _

/-- Interpolation undoes evaluation. -/
theorem interpolate_valuesOf (coset : Coset F) {p : F[X]} (hdegree : p.degree < coset.size) :
    polynomialOf (coset.interpolate (coset.valuesOf p)) = p := by
  have hsize := size_valuesOf coset p
  refine (coset.wordOf_inj (coset.degree_interpolate_lt hsize) hdegree).mp ?_
  rw [← reverseOrder_valuesOf, valuesOf_interpolate coset hsize, reverseOrder_valuesOf]

theorem interpolate?_valuesOf (coset : Coset F) (p : F[X]) :
    coset.interpolate? (coset.valuesOf p) = .ok (coset.interpolate (coset.valuesOf p)) := by
  rw [interpolate?, if_pos (size_valuesOf coset p)]

/-- Every word with one value for each point stores the values of a polynomial with that many
coefficients. -/
theorem exists_evaluateAll (coset : Coset F) {word : Array F} (size : word.size = coset.size) :
    ∃ coefficients : Array F, coefficients.size = coset.size ∧
      bitReversed? (coset.evaluateAll coefficients) = .ok word := by
  have hsize : (reverseOrder coset.dimension word).size = coset.size := by
    rw [size_reverseOrder, size]
  refine ⟨_, coset.size_interpolate hsize, ?_⟩
  rw [evaluateAll_eq_valuesOf, valuesOf_interpolate coset hsize,
    bitReversed?_of_size (by rw [hsize, size_eq]),
    reverseOrder_reverseOrder (by rw [size, size_eq])]

/-- Every word with one value for each point is the word of a polynomial with
fewer coefficients than points. -/
theorem exists_wordOf (coset : Coset F) {word : Array F} (size : word.size = coset.size) :
    ∃ p : F[X], p.degree < coset.size ∧ coset.wordOf p = word := by
  obtain ⟨coefficients, hsize, hword⟩ := coset.exists_evaluateAll size
  rw [evaluateAll_eq_valuesOf, bitReversed?_valuesOf] at hword
  exact ⟨polynomialOf coefficients, hsize ▸ degree_polynomialOf_lt coefficients,
    Except.ok.inj hword⟩

/-- The word is the one of a polynomial with at most `bound` coefficients. -/
def IsLowDegree (coset : Coset F) (bound : ℕ) (word : Array F) : Prop :=
  ∃ p : F[X], p.degree < bound ∧ coset.wordOf p = word

theorem isLowDegree_wordOf_iff (coset : Coset F) {p : F[X]} (hdegree : p.degree < coset.size)
    {bound : ℕ} (fits : bound ≤ coset.size) :
    coset.IsLowDegree bound (coset.wordOf p) ↔ p.degree < bound := by
  constructor
  · rintro ⟨q, hq, hword⟩
    have hshort : q.degree < coset.size := hq.trans_le (by exact_mod_cast fits)
    rwa [← (coset.wordOf_inj hshort hdegree).mp hword]
  · intro hbound
    exact ⟨p, hbound, rfl⟩

end Words

section Chain

omit [LawfulField F] in
/-- The subgroup of an order has one as its shift. -/
theorem subgroup?_eq_ok_iff {size : ℕ} {coset : Coset F} :
    subgroup? size = .ok coset ↔ size = 2 ^ coset.dimension ∧ coset.shift = 1 := by
  rw [subgroup?, ofSize?_eq_ok_iff, eq_comm (a := (1 : F))]

/-- The image under a power of two exists up to the dimension of the coset. -/
theorem power?_eq_ok_iff {coset image : Coset F} {exponent : ℕ} :
    coset.power? exponent = .ok image ↔
      exponent < wordBits ∧ image.dimension + exponent = coset.dimension ∧
        image.shift = coset.shift ^ 2 ^ exponent := by
  rw [power?]
  by_cases hword : exponent < wordBits
  · rw [if_pos hword, ofSize?_eq_ok_iff, power_eq_pow, Nat.one_shiftLeft, size_eq,
      Nat.shiftRight_eq_div_pow, eq_comm (a := coset.shift ^ _)]
    simp only [hword, true_and]
    apply and_congr_left
    intro _
    constructor
    · intro hsize
      have hle : exponent ≤ coset.dimension := by
        by_contra hgreater
        have hlt : 2 ^ coset.dimension < 2 ^ exponent :=
          Nat.pow_lt_pow_right one_lt_two (not_le.mp hgreater)
        rw [Nat.div_eq_of_lt hlt] at hsize
        exact absurd hsize.symm (by positivity)
      rw [Nat.pow_div hle two_pos] at hsize
      have := Nat.pow_right_injective le_rfl hsize
      omega
    · intro hdimension
      rw [← hdimension, pow_add, Nat.mul_div_cancel _ (by positivity)]
  · simp [hword]

/-- The points of a smaller coset with the same shift are every so many points of
the larger one. -/
theorem element_of_dimension_le {coset larger : Coset F} (le : coset.dimension ≤ larger.dimension)
    (shift : coset.shift = larger.shift) (index : ℕ) :
    larger.element (index * 2 ^ (larger.dimension - coset.dimension)) = coset.element index := by
  rw [element_eq, element_eq, shift, mul_comm index, pow_mul, generator,
    FiniteField.rootOfUnity_pow le larger.dimension_le, generator]

/-- Two cosets meet in all points of the smaller one or in none: the power that the larger one
asks of its points has a single value at those of the smaller one. -/
theorem mem_points_iff_of_mem {coset larger : Coset F} (le : coset.dimension ≤ larger.dimension)
    {a : F} (hmem : a ∈ coset.points) :
    a ∈ larger.points ↔ coset.shift ^ larger.size = larger.shift ^ larger.size := by
  have hsize : larger.size = coset.size * 2 ^ (larger.dimension - coset.dimension) := by
    rw [size_eq, size_eq, ← pow_add, Nat.add_sub_cancel' le]
  have hpower : a ^ larger.size = coset.shift ^ larger.size := by
    rw [hsize, pow_mul, (coset.mem_points_iff a).mp hmem, shiftPower_eq, ← pow_mul]
  rw [mem_points_iff, hpower, shiftPower_eq]

/-- The lowest bits of a position choose a root of unity, and the others a coset
of the group of these roots. -/
private theorem point_eq {coset : Coset F} {low high : ℕ} (split : low + high = coset.dimension)
    (block : ℕ) {offset : ℕ} (inside : offset < 2 ^ low) :
    coset.point (block * 2 ^ low + offset) =
      coset.shift * coset.generator ^ reverseBits high block *
        FiniteField.rootOfUnity F low ^ reverseBits low offset := by
  have hroot : coset.generator ^ 2 ^ high = FiniteField.rootOfUnity F low := by
    rw [generator, ← FiniteField.rootOfUnity_pow (by omega : low ≤ coset.dimension)
      coset.dimension_le, Nat.sub_eq_of_eq_add' split.symm]
  rw [point, element_eq, ← split, reverseBits_split high block inside, pow_add,
    mul_comm _ (2 ^ high), pow_mul, hroot]
  ring

/-- A block of neighbours is a coset of the subgroup of its size, moved by its
first point. -/
theorem point_block {coset subgroup : Coset F} (hshift : subgroup.shift = 1) {rest : ℕ}
    (split : subgroup.dimension + rest = coset.dimension) (block : ℕ) {offset : ℕ}
    (inside : offset < 2 ^ subgroup.dimension) :
    coset.point (block * 2 ^ subgroup.dimension + offset) =
      coset.point (block * 2 ^ subgroup.dimension) * subgroup.point offset := by
  have hfirst := point_eq split block (Nat.two_pow_pos _)
  rw [add_zero, reverseBits_zero, pow_zero, mul_one] at hfirst
  rw [point_eq split block inside, hfirst, point, element_eq, hshift, one_mul]
  rfl

/-- The generator of a coset has that of a smaller one as its power. -/
private theorem generator_pow {coset image : Coset F} {exponent : ℕ}
    (split : exponent + image.dimension = coset.dimension) :
    coset.generator ^ 2 ^ exponent = image.generator := by
  rw [generator, generator, ← FiniteField.rootOfUnity_pow
    (by omega : image.dimension ≤ coset.dimension) coset.dimension_le,
    Nat.sub_eq_of_eq_add split.symm]

/-- The points of the image are the powers of the points, in the same order. -/
theorem element_pow {coset image : Coset F} {exponent : ℕ}
    (split : exponent + image.dimension = coset.dimension)
    (hshift : image.shift = coset.shift ^ 2 ^ exponent) (index : ℕ) :
    coset.element index ^ 2 ^ exponent = image.element index := by
  rw [element_eq, element_eq, hshift, ← generator_pow split, mul_pow, pow_right_comm]

/-- All points of a block have one power, the point of the image at the position
of the block. -/
theorem point_pow {coset image : Coset F} {exponent : ℕ}
    (split : exponent + image.dimension = coset.dimension)
    (hshift : image.shift = coset.shift ^ 2 ^ exponent) (block : ℕ) {offset : ℕ}
    (inside : offset < 2 ^ exponent) :
    coset.point (block * 2 ^ exponent + offset) ^ 2 ^ exponent = image.point block := by
  have hroot : FiniteField.rootOfUnity F exponent ^ 2 ^ exponent = 1 :=
    (FiniteField.isPrimitiveRoot_rootOfUnity (by have := coset.dimension_le; omega)).pow_eq_one
  rw [point_eq split block inside, point, ← element_pow split hshift, element_eq, mul_pow,
    pow_right_comm _ (reverseBits exponent offset), hroot, one_pow, mul_one]

end Chain

section Regrouping

omit [LawfulField F] in
/-- Regrouping exchanges the lower and the higher bits of an index. -/
theorem regroup_eq (coset : Coset F) (subset index : ℕ) :
    coset.regroup subset index =
      index % 2 ^ subset * 2 ^ (coset.dimension - subset) + index / 2 ^ subset := by
  rw [regroup, Nat.one_shiftLeft, Nat.shiftLeft_eq, Nat.shiftRight_eq_div_pow]

omit [LawfulField F] in
/-- The higher bits of an index count the groups. -/
theorem div_lt_of_lt_size (coset : Coset F) {subset index : ℕ} (le : subset ≤ coset.dimension)
    (inside : index < coset.size) : index / 2 ^ subset < 2 ^ (coset.dimension - subset) := by
  refine Nat.div_lt_of_lt_mul ?_
  rwa [← pow_add, Nat.add_sub_cancel' le, ← size_eq]

omit [LawfulField F] in
theorem regroup_lt (coset : Coset F) {subset index : ℕ} (le : subset ≤ coset.dimension)
    (inside : index < coset.size) : coset.regroup subset index < coset.size := by
  have hlow : index % 2 ^ subset < 2 ^ subset := Nat.mod_lt _ (Nat.two_pow_pos _)
  calc
    coset.regroup subset index
      < index % 2 ^ subset * 2 ^ (coset.dimension - subset) + 2 ^ (coset.dimension - subset) := by
        rw [regroup_eq]
        exact Nat.add_lt_add_left (coset.div_lt_of_lt_size le inside) _
    _ = (index % 2 ^ subset + 1) * 2 ^ (coset.dimension - subset) := (Nat.succ_mul _ _).symm
    _ ≤ 2 ^ subset * 2 ^ (coset.dimension - subset) := Nat.mul_le_mul_right _ hlow
    _ = coset.size := by rw [← pow_add, Nat.add_sub_cancel' le, size_eq]

/-- Regrouped by a smaller coset with the same shift, the points are those of the smaller coset,
then those of its multiples by the powers of the generator. -/
theorem element_regroup {coset larger : Coset F} (le : coset.dimension ≤ larger.dimension)
    (shift : coset.shift = larger.shift) (index : ℕ) :
    larger.element (larger.regroup coset.dimension index) =
      larger.generator ^ (index / 2 ^ coset.dimension) *
        coset.element (index % 2 ^ coset.dimension) := by
  rw [regroup_eq, ← element_of_dimension_le le shift, element_eq, element_eq, pow_add]
  ring

/-- Regrouping by a smaller coset with the same shift lists the positions of its points first. -/
theorem regroup_spec {coset larger : Coset F} (le : coset.dimension ≤ larger.dimension)
    (shift : coset.shift = larger.shift) {index : ℕ} (inside : index < coset.size) :
    larger.regroup coset.dimension index < larger.size ∧
      larger.element (larger.regroup coset.dimension index) = coset.element index := by
  have hsizes : coset.size ≤ larger.size := by
    rw [size_eq, size_eq]
    exact Nat.pow_le_pow_right two_pos le
  refine ⟨larger.regroup_lt le (inside.trans_le hsizes), ?_⟩
  rw [size_eq] at inside
  rw [element_regroup le shift, Nat.div_eq_of_lt inside, Nat.mod_eq_of_lt inside, pow_zero, one_mul]

end Regrouping

section Sum

omit [LawfulField F] in
/-- A coset lies in a larger one with the same shift, up to the two-adicity of the field. -/
theorem exists_extension (coset : Coset F) {dimension : ℕ}
    (supported : dimension ≤ FiniteField.twoAdicity F) :
    ∃ extended : Coset F, ofSize? (1 <<< max dimension coset.dimension) coset.shift = .ok extended ∧
      coset.dimension ≤ extended.dimension ∧ coset.shift = extended.shift :=
  ⟨⟨max dimension coset.dimension, coset.shift, max_le supported coset.dimension_le,
    coset.shift_ne_zero⟩, ofSize?_eq_ok_iff.mpr ⟨Nat.one_shiftLeft _, rfl⟩, le_max_right _ _, rfl⟩

/-- The sum is the sum of the values over all points, whenever the field has a
coset with room for all coefficients. -/
theorem sum?_eq (coset : Coset F) {p : DensePoly F}
    (supported : ceilLog2 p.length ≤ FiniteField.twoAdicity F) :
    coset.sum? p = .ok (∑ a ∈ coset.points, p.toPolynomial.eval a) := by
  obtain ⟨extended, hextended, hle, hshift⟩ := coset.exists_extension supported
  rw [sum?, hextended, sum_points]
  refine congrArg Except.ok ?_
  simp only [FiniteField.sumRange_eq_sum]
  apply Finset.sum_congr rfl
  intro index hindex
  obtain ⟨hplace, helement⟩ := regroup_spec hle hshift (Finset.mem_range.mp hindex)
  rw [evaluateAll_eq_valuesOf, getD_valuesOf _ _ hplace, helement]
  rfl

private theorem sum_element_pow (coset : Coset F) {exponent : ℕ} (positive : 0 < exponent)
    (inside : exponent < coset.size) :
    ∑ index ∈ Finset.range coset.size, coset.element index ^ exponent = 0 := by
  have hpower (index : ℕ) : coset.element index ^ exponent =
      coset.shift ^ exponent * (coset.generator ^ exponent) ^ index := by
    rw [element_eq, mul_pow, ← pow_mul, ← pow_mul, mul_comm index]
  simp only [hpower]
  rw [← Finset.mul_sum]
  rw [size_eq] at inside ⊢
  have hne : coset.generator ^ exponent ≠ 1 :=
    coset.isPrimitiveRoot_generator.pow_ne_one_of_pos_of_lt positive.ne' inside
  have hone : (coset.generator ^ exponent) ^ 2 ^ coset.dimension = 1 := by
    rw [pow_right_comm, coset.isPrimitiveRoot_generator.pow_eq_one, one_pow]
  rw [sum_pow_eq_zero hone hne, mul_zero]

/-- A polynomial with fewer coefficients than points sums up to its constant term,
once for each point. -/
theorem sum_eval_of_degree_lt (coset : Coset F) {q : F[X]} (hdegree : q.degree < coset.size) :
    ∑ a ∈ coset.points, q.eval a = coset.size * q.coeff 0 := by
  rw [sum_points]
  simp only [eval_eq_sum_of_degree_lt hdegree]
  rw [Finset.sum_comm, Finset.sum_eq_single_of_mem 0 (Finset.mem_range.mpr coset.size_pos)]
  · simp
  · intro exponent hexponent hne
    rw [← Finset.mul_sum, coset.sum_element_pow (Nat.pos_of_ne_zero hne)
      (Finset.mem_range.mp hexponent), mul_zero]

end Sum

end Coset
end OracleProofs

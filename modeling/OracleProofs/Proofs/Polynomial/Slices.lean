/-
# Slices of a polynomial

The coefficients whose exponents have one remainder modulo `count` make a
polynomial of their own, a slice. A polynomial is the sum of its slices at the
power `x ^ count`, each multiplied by a power of `x` below `count`. Replacing
these powers of `x` by those of a challenge folds the polynomial to one of a
`count`-th of its length. Few challenges cannot hide high coefficients: if the
folds by `count` challenges are short, the polynomial is.
-/

import Mathlib

namespace OracleProofs

open Polynomial

/-- A sum over blocks, taken place by place within the blocks. -/
theorem sum_range_mul {M : Type*} [AddCommMonoid M] (term : ℕ → M) (blocks size : ℕ) :
    ∑ place ∈ Finset.range (blocks * size), term place =
      ∑ place ∈ Finset.range size, ∑ block ∈ Finset.range blocks, term (block * size + place) := by
  induction blocks with
  | zero => simp
  | succ blocks ih =>
      simp only [Finset.sum_range_succ, Finset.sum_add_distrib]
      rw [Nat.succ_mul, Finset.sum_range_add, ih]

section Slice

variable {R : Type*} [CommRing R]

/-- A value as a sum over any range that covers all coefficients. -/
theorem eval_eq_sum_of_degree_lt {p : R[X]} {count : ℕ} (hdegree : p.degree < count) (x : R) :
    p.eval x = ∑ exponent ∈ Finset.range count, p.coeff exponent * x ^ exponent := by
  by_cases hzero : p = 0
  · simp [hzero]
  · exact eval_eq_sum_range' ((natDegree_lt_iff_degree_lt hzero).mpr hdegree) x

/-- The polynomial of the coefficients at `place, place + count, …`. -/
noncomputable def slice (count place : ℕ) (p : R[X]) : R[X] :=
  contract count (divX^[place] p)

private theorem coeff_iterate_divX (place : ℕ) (p : R[X]) (exponent : ℕ) :
    (divX^[place] p).coeff exponent = p.coeff (exponent + place) := by
  induction place generalizing p with
  | zero => rfl
  | succ place ih =>
      rw [Function.iterate_succ_apply, ih, coeff_divX]
      exact congrArg p.coeff (by omega)

theorem coeff_slice {count : ℕ} (positive : 0 < count) (place : ℕ) (p : R[X]) (exponent : ℕ) :
    (slice count place p).coeff exponent = p.coeff (exponent * count + place) := by
  rw [slice, coeff_contract positive.ne', coeff_iterate_divX]

/-- The polynomial is the sum of the parts at the power `x ^ count`, each multiplied by the
power of `x` that belongs to its place. -/
def IsSplit (count : ℕ) (p : R[X]) (parts : ℕ → R[X]) : Prop :=
  p = ∑ place ∈ Finset.range count, X ^ place * (parts place).comp (X ^ count)

/-- No exponent belongs to two of the parts. -/
private theorem coeff_sum_parts {count place : ℕ} (inside : place < count) (parts : ℕ → R[X])
    (exponent : ℕ) :
    (∑ place ∈ Finset.range count, X ^ place * (parts place).comp (X ^ count)).coeff
        (exponent * count + place) = (parts place).coeff exponent := by
  have positive := Nat.zero_lt_of_lt inside
  simp only [finsetSum_coeff, ← expand_eq_comp_X_pow, coeff_X_pow_mul', coeff_expand positive]
  rw [Finset.sum_eq_single_of_mem place (Finset.mem_range.mpr inside)]
  · rw [if_pos (Nat.le_add_left _ _), Nat.add_sub_cancel, if_pos (Nat.dvd_mul_left _ _),
      Nat.mul_div_cancel _ positive]
  · intro other hother hne
    by_cases hle : other ≤ exponent * count + place
    · rw [if_pos hle, if_neg]
      -- the exponents of another part leave another remainder
      intro hdvd
      have hmod : other % count = (exponent * count + place) % count :=
        (Nat.modEq_iff_dvd' hle).mpr hdvd
      rw [Nat.mul_add_mod_self_right, Nat.mod_eq_of_lt inside,
        Nat.mod_eq_of_lt (Finset.mem_range.mp hother)] at hmod
      exact hne hmod
    · rw [if_neg hle]

/-- A polynomial is put together from its slices, and from nothing else. -/
theorem isSplit_iff {count : ℕ} (positive : 0 < count) {p : R[X]} {parts : ℕ → R[X]} :
    IsSplit count p parts ↔ ∀ place < count, parts place = slice count place p := by
  constructor
  · intro split place inside
    ext exponent
    rw [coeff_slice positive, split, coeff_sum_parts inside]
  · intro hparts
    rw [IsSplit]
    ext exponent
    have hplace := Nat.mod_lt exponent positive
    rw [← Nat.div_add_mod' exponent count, coeff_sum_parts hplace, hparts _ hplace,
      coeff_slice positive]

/-- A value is put together from the values of the slices at the power. -/
theorem eval_eq_sum_slice {count : ℕ} (positive : 0 < count) (p : R[X]) (x : R) :
    p.eval x =
      ∑ place ∈ Finset.range count, x ^ place * (slice count place p).eval (x ^ count) := by
  have hsplit : IsSplit count p (slice count · p) := (isSplit_iff positive).mpr fun _ _ => rfl
  conv_lhs => rw [hsplit]
  simp only [eval_finsetSum, eval_mul, eval_pow, eval_X, eval_comp]

/-- The slices added up with the powers of a challenge. -/
noncomputable def foldSlices (count : ℕ) (challenge : R) (p : R[X]) : R[X] :=
  ∑ place ∈ Finset.range count, C (challenge ^ place) * slice count place p

theorem coeff_foldSlices {count : ℕ} (positive : 0 < count) (challenge : R) (p : R[X])
    (exponent : ℕ) : (foldSlices count challenge p).coeff exponent =
      ∑ place ∈ Finset.range count, challenge ^ place * p.coeff (exponent * count + place) := by
  rw [foldSlices, finsetSum_coeff]
  simp only [coeff_C_mul, coeff_slice positive]

/-- Folding replaces the powers of the variable before the parts by those of the challenge. -/
theorem IsSplit.foldSlices_eq {count : ℕ} {p : R[X]} {parts : ℕ → R[X]}
    (split : IsSplit count p parts) (challenge : R) :
    foldSlices count challenge p =
      ∑ place ∈ Finset.range count, C (challenge ^ place) * parts place := by
  apply Finset.sum_congr rfl
  intro place hplace
  have inside := Finset.mem_range.mp hplace
  rw [(isSplit_iff (Nat.zero_lt_of_lt inside)).mp split place inside]

theorem foldSlices_add {count : ℕ} (positive : 0 < count) (challenge : R) (p q : R[X]) :
    foldSlices count challenge (p + q) =
      foldSlices count challenge p + foldSlices count challenge q := by
  ext exponent
  simp only [coeff_add, coeff_foldSlices positive, mul_add, Finset.sum_add_distrib]

theorem foldSlices_sub {count : ℕ} (positive : 0 < count) (challenge : R) (p q : R[X]) :
    foldSlices count challenge (p - q) =
      foldSlices count challenge p - foldSlices count challenge q := by
  ext exponent
  simp only [coeff_sub, coeff_foldSlices positive, mul_sub, Finset.sum_sub_distrib]

theorem foldSlices_C_mul {count : ℕ} (positive : 0 < count) (challenge factor : R) (p : R[X]) :
    foldSlices count challenge (C factor * p) = C factor * foldSlices count challenge p := by
  ext exponent
  simp only [coeff_C_mul, coeff_foldSlices positive, Finset.mul_sum, mul_left_comm]

/-- A power of the variable below the number of slices becomes one of the challenge. -/
theorem foldSlices_X_pow {count place : ℕ} (inside : place < count) (challenge : R) :
    foldSlices count challenge (X ^ place) = C (challenge ^ place) := by
  ext exponent
  rw [coeff_foldSlices (Nat.zero_lt_of_lt inside), coeff_C]
  simp only [coeff_X_pow]
  by_cases hzero : exponent = 0
  · rw [if_pos hzero, Finset.sum_eq_single_of_mem place (Finset.mem_range.mpr inside)]
    · rw [if_pos (by rw [hzero, zero_mul, zero_add]), mul_one]
    · intro other _ hother
      rw [if_neg (by rw [hzero, zero_mul, zero_add]; exact hother), mul_zero]
  · rw [if_neg hzero]
    apply Finset.sum_eq_zero
    intro other _
    have hlarge := Nat.le_mul_of_pos_left count (Nat.pos_of_ne_zero hzero)
    rw [if_neg (by omega), mul_zero]

/-- Folding divides the bound on the degree by the number of slices. -/
theorem degree_foldSlices_lt {count : ℕ} (positive : 0 < count) (challenge : R) {p : R[X]}
    {bound : ℕ} (hdegree : p.degree < (bound * count : ℕ)) :
    (foldSlices count challenge p).degree < bound := by
  rw [degree_lt_iff_coeff_zero] at hdegree ⊢
  intro exponent hle
  rw [coeff_foldSlices positive]
  apply Finset.sum_eq_zero
  intro place _
  have hlarge := Nat.mul_le_mul_right count hle
  rw [hdegree _ (by omega), mul_zero]

/-- The polynomial that has, at all points `z` for which `first * z` has one power,
the values of `p` at `first * z`. -/
noncomputable def leafPolynomial (count : ℕ) (p : R[X]) (first image : R) : R[X] :=
  ∑ place ∈ Finset.range count, C (first ^ place * (slice count place p).eval image) * X ^ place

theorem degree_leafPolynomial_lt (count : ℕ) (p : R[X]) (first image : R) :
    (leafPolynomial count p first image).degree < count := by
  rw [leafPolynomial, degree_lt_iff_coeff_zero]
  intro exponent hle
  rw [finsetSum_coeff]
  apply Finset.sum_eq_zero
  intro place hplace
  have hlt := Finset.mem_range.mp hplace
  rw [coeff_C_mul_X_pow, if_neg (by omega)]

private theorem eval_leafPolynomial_eq_sum (count : ℕ) (p : R[X]) (first image z : R) :
    (leafPolynomial count p first image).eval z =
      ∑ place ∈ Finset.range count, (first * z) ^ place * (slice count place p).eval image := by
  rw [leafPolynomial, eval_finsetSum]
  apply Finset.sum_congr rfl
  intro place _
  rw [eval_mul, eval_C, eval_pow, eval_X, mul_pow]
  ring

theorem eval_leafPolynomial {count : ℕ} (positive : 0 < count) (p : R[X]) {first image z : R}
    (power : (first * z) ^ count = image) :
    (leafPolynomial count p first image).eval z = p.eval (first * z) := by
  rw [eval_leafPolynomial_eq_sum, eval_eq_sum_slice positive p, power]

end Slice

section Domain

variable {K : Type*} [Field K]

/-- At a challenge divided by the first point, the polynomial of a leaf has the
value of the folded polynomial. -/
theorem eval_leafPolynomial_div (count : ℕ) (p : K[X]) {first : K} (nonzero : first ≠ 0)
    (image challenge : K) :
    (leafPolynomial count p first image).eval (challenge * first⁻¹) =
      (foldSlices count challenge p).eval image := by
  rw [eval_leafPolynomial_eq_sum, foldSlices, eval_finsetSum, mul_comm challenge,
    mul_inv_cancel_left₀ nonzero]
  simp only [eval_mul, eval_C]

/-- If the folds by `count` different challenges are short, so is the polynomial:
each group of its high coefficients would be a polynomial below degree `count`
with all the challenges as roots. -/
theorem degree_lt_of_foldSlices {count : ℕ} (positive : 0 < count) {p : K[X]} {bound : ℕ}
    {challenges : Finset K} (card : challenges.card = count)
    (short : ∀ challenge ∈ challenges,
      (foldSlices count challenge p).degree < (bound / count : ℕ)) : p.degree < bound := by
  rw [degree_lt_iff_coeff_zero]
  intro exponent hle
  let group : K[X] := ∑ place ∈ Finset.range count,
    C (p.coeff (exponent / count * count + place)) * X ^ place
  have hgroup (place : ℕ) (inside : place < count) :
      group.coeff place = p.coeff (exponent / count * count + place) := by
    rw [finsetSum_coeff, Finset.sum_eq_single_of_mem place (Finset.mem_range.mpr inside)]
    · rw [coeff_C_mul_X_pow, if_pos rfl]
    · intro other _ hother
      rw [coeff_C_mul_X_pow, if_neg hother.symm]
  have hdegree : group.degree < challenges.card := by
    rw [card, degree_lt_iff_coeff_zero]
    intro large hlarge
    rw [finsetSum_coeff]
    apply Finset.sum_eq_zero
    intro place hplace
    have hlt := Finset.mem_range.mp hplace
    rw [coeff_C_mul_X_pow, if_neg (by omega)]
  have hroots : ∀ challenge ∈ challenges, group.eval challenge = 0 := by
    intro challenge hmem
    have hcoeff := (degree_lt_iff_coeff_zero _ _).mp (short challenge hmem)
      (exponent / count) (Nat.div_le_div_right hle)
    rw [coeff_foldSlices positive] at hcoeff
    rw [eval_finsetSum, ← hcoeff]
    apply Finset.sum_congr rfl
    intro place _
    rw [eval_mul, eval_C, eval_pow, eval_X, mul_comm]
  have hzero : group = 0 := eq_zero_of_degree_lt_of_eval_finset_eq_zero challenges hdegree hroots
  have hsplit := Nat.div_add_mod exponent count
  rw [mul_comm] at hsplit
  rw [← hsplit, ← hgroup _ (Nat.mod_lt exponent positive), hzero, coeff_zero]

end Domain

end OracleProofs

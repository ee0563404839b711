/-
# Linearized polynomials written out

Every linearized polynomial that the operations build ends with a coefficient other than
zero, or is a constant. Written out, it has its constant at the exponent zero and its other
coefficients at the powers of two, so no coefficient hides another one: the polynomial is
determined by what is written out, which has the same degree and the same values. Sums,
differences and multiples are taken on the coefficients, hence they agree with those of
dense polynomials, and in characteristic two so does the square that doubles all exponents.
-/

import Mathlib
import OracleProofs.Proofs.Domain.Tower
import OracleProofs.Proofs.Polynomial.Linearized
import OracleProofs.Proofs.Polynomial.Product
import OracleProofs.Proofs.Polynomial.Vanishing

namespace OracleProofs
namespace Linearized

open Polynomial

variable {F : Type} [FiniteField F]

section Normal

/-- The coefficients of the powers do not end with zero. -/
def Normal (p : Linearized F) : Prop := p.linear.getLast? ≠ some 0

/-- What the operations build, in any order and from whatever they built before. A square in place
is the square. -/
inductive Built : Linearized F → Prop
  | ofParts (constant : F) (linear : List F) : Built (ofParts constant linear)
  | ofCoefficients (coefficients : List F) : Built (ofCoefficients coefficients)
  | identity : Built identity
  | withConstant {p : Linearized F} (built : Built p) (constant : F) :
      Built (p.withConstant constant)
  | add {p q : Linearized F} (first : Built p) (second : Built q) : Built (p + q)
  | sub {p q : Linearized F} (first : Built p) (second : Built q) : Built (p - q)
  | scale {p : Linearized F} (built : Built p) (factor : F) : Built (p.scale factor)
  | square {p : Linearized F} (built : Built p) : Built p.square

theorem normal_ofParts (constant : F) (linear : List F) : (ofParts constant linear).Normal :=
  getLast?_trim linear

theorem normal_ofCoefficients (coefficients : List F) : (ofCoefficients coefficients).Normal := by
  cases coefficients with
  | nil => exact normal_ofParts 0 []
  | cons constant linear => exact normal_ofParts constant linear

/-- Nothing is removed from a list that does not end with zero. -/
theorem trim_eq_self {linear : List F} (normal : linear.getLast? ≠ some 0) :
    trim linear = linear := by
  induction linear with
  | nil => rfl
  | cons first rest ih =>
      cases rest with
      | nil =>
          have hne : first ≠ 0 := by simpa using normal
          rw [trim, trim, if_neg hne]
      | cons second later =>
          rw [List.getLast?_cons_cons] at normal
          rw [trim, ih normal]

theorem Normal.eq_ofParts {p : Linearized F} (normal : p.Normal) :
    p = ofParts p.constant p.linear := by
  rw [ofParts, trim_eq_self normal]

/-- A polynomial that does not end with zero is zero or has a leading term at its degree. -/
theorem Normal.eq_zero_or_leads {p : Linearized F} (normal : p.Normal) :
    p = ⟨0, []⟩ ∨ ∃ leading, p.terms.Leads p.degree leading := by
  obtain ⟨constant, linear⟩ := p
  cases hlast : linear.getLast? with
  | none =>
      obtain rfl : linear = [] := List.getLast?_eq_none_iff.mp hlast
      by_cases hzero : constant = 0
      · exact .inl (by rw [hzero])
      · refine .inr ⟨constant, ?_, pairwise_terms _, hzero⟩
        rw [terms, if_neg hzero]
        rfl
  | some leading =>
      obtain ⟨count, hlength⟩ : ∃ count, linear.length = count + 1 :=
        Nat.exists_eq_add_one_of_ne_zero (by
          intro hzero
          rw [List.length_eq_zero_iff.mp hzero] at hlast
          cases hlast)
      have hne : leading ≠ 0 := by
        rintro rfl
        exact normal hlast
      have hdegree : degree ⟨constant, linear⟩ = 2 ^ count := by
        simp only [degree, hlength, Nat.one_shiftLeft]
      exact .inr ⟨leading, hdegree ▸ leads_terms hlength hlast hne⟩

/-- The last term is at the degree, unless there is no term. -/
theorem Normal.degree_terms {p : Linearized F} (normal : p.Normal) :
    p.terms.degree = p.degree := by
  rcases normal.eq_zero_or_leads with rfl | ⟨leading, hleads⟩
  · rw [terms, if_pos rfl]
    rfl
  · exact hleads.degree_eq

variable [LawfulField F]

theorem Normal.square {p : Linearized F} (normal : p.Normal) : p.square.Normal := by
  obtain ⟨constant, linear⟩ := p
  cases linear with
  | nil => exact normal
  | cons first rest =>
      have hne : (first :: rest).map (fun coefficient => coefficient * coefficient) ≠ [] := by simp
      have hlast : (Linearized.square ⟨constant, first :: rest⟩).linear.getLast? =
          (first :: rest).getLast?.map fun coefficient => coefficient * coefficient := by
        rw [Linearized.square, List.getLast?_cons_of_ne_nil hne, List.getLast?_map]
      rw [Normal, hlast, Ne, Option.map_eq_some_iff]
      rintro ⟨leading, hleading, hzero⟩
      rw [mul_self_eq_zero] at hzero
      exact normal (hzero ▸ hleading)

/-- Each operation keeps the last coefficient from being zero. -/
theorem Built.normal {p : Linearized F} (built : Built p) : p.Normal := by
  induction built with
  | ofParts constant linear => exact normal_ofParts constant linear
  | ofCoefficients coefficients => exact normal_ofCoefficients coefficients
  | identity => exact normal_ofParts 0 [1]
  | withConstant built constant ih => exact ih
  | add first second _ _ => exact normal_ofParts _ _
  | sub first second _ _ => exact normal_ofParts _ _
  | scale built factor _ => exact normal_ofParts _ _
  | square built ih => exact ih.square

/-- The operations build all polynomials that do not end with zero and no others. -/
theorem built_iff_normal {p : Linearized F} : Built p ↔ p.Normal := by
  refine ⟨Built.normal, fun normal => ?_⟩
  rw [normal.eq_ofParts]
  exact .ofParts p.constant p.linear

end Normal

section Coefficients

/-- Lists without a zero at the end are determined by their coefficients. -/
theorem eq_of_getD_eq {first second : List F} (normal_first : first.getLast? ≠ some 0)
    (normal_second : second.getLast? ≠ some 0)
    (same : ∀ place, first.getD place 0 = second.getD place 0) : first = second := by
  have hfirst : first.length ≤ second.length := length_le_of_getD normal_first fun place hle => by
    rw [same, List.getD_eq_default _ _ hle]
  have hsecond : second.length ≤ first.length := length_le_of_getD normal_second fun place hle => by
    rw [← same, List.getD_eq_default _ _ hle]
  refine List.ext_getElem (le_antisymm hfirst hsecond) fun place hleft hright => ?_
  have hentry := same place
  rwa [List.getD_eq_getElem _ _ hleft, List.getD_eq_getElem _ _ hright] at hentry

theorem length_square_le (p : Linearized F) : p.square.linear.length ≤ p.linear.length + 1 := by
  obtain ⟨constant, linear⟩ := p
  cases linear with
  | nil => exact Nat.zero_le _
  | cons first rest => simp [square]

theorem getD_linear_square_zero (p : Linearized F) : p.square.linear.getD 0 0 = 0 := by
  obtain ⟨constant, linear⟩ := p
  cases linear with
  | nil => rfl
  | cons first rest => rfl

end Coefficients

section Expansion

variable [LawfulField F]

theorem toPolynomial_linearTerms {linear : List F} {count : ℕ} (covers : linear.length ≤ count)
    (exponent : ℕ) : (linearTerms exponent linear).toPolynomial =
      ∑ place ∈ Finset.range count, C (linear.getD place 0) * X ^ (exponent * 2 ^ place) := by
  induction linear generalizing count exponent with
  | nil => simp [linearTerms, Terms.toPolynomial]
  | cons first rest ih =>
      obtain ⟨count, rfl⟩ := Nat.exists_eq_add_one_of_ne_zero
        (Nat.ne_zero_of_lt (Nat.lt_of_succ_le covers))
      have hexponent (place : ℕ) : 2 * exponent * 2 ^ place = exponent * 2 ^ (place + 1) := by
        ring
      rw [Finset.sum_range_succ', linearTerms]
      simp only [List.getD_cons_succ, List.getD_cons_zero, pow_zero, mul_one, ← hexponent]
      rw [← ih (Nat.le_of_succ_le_succ covers)]
      by_cases hzero : first = 0
      · rw [if_pos hzero, hzero, C_0, zero_mul, add_zero]
      · rw [if_neg hzero, Terms.toPolynomial_cons, add_comm]

theorem toPolynomial_expand_eq_terms (p : Linearized F) :
    p.expand.toPolynomial = p.terms.toPolynomial :=
  (DensePoly.toPolynomial_ofCoefficients _).trans
    (Terms.polynomialOf_toCoefficients (Terms.bounded_of_sorted p.pairwise_terms))

/-- Written out, a polynomial is the sum of its constant and of its coefficients at the powers of
two, over any range that covers them. -/
theorem toPolynomial_expand_eq_sum {p : Linearized F} {count : ℕ}
    (covers : p.linear.length ≤ count) : p.expand.toPolynomial = C p.constant +
      ∑ place ∈ Finset.range count, C (p.linear.getD place 0) * X ^ 2 ^ place := by
  have hlinear := toPolynomial_linearTerms covers 1
  simp only [one_mul] at hlinear
  rw [toPolynomial_expand_eq_terms, terms, ← hlinear]
  by_cases hzero : p.constant = 0
  · rw [if_pos hzero, hzero, C_0, zero_add]
  · rw [if_neg hzero, Terms.toPolynomial_cons, pow_zero, mul_one]

theorem coefficient_expand_zero (p : Linearized F) : p.expand.coefficient 0 = p.constant := by
  rw [← DensePoly.coeff_toPolynomial, toPolynomial_expand_eq_sum le_rfl, coeff_add, coeff_C_zero,
    finsetSum_coeff, Finset.sum_eq_zero, add_zero]
  intro place _
  rw [coeff_C_mul_X_pow, if_neg (Nat.two_pow_pos place).ne]

theorem coefficient_expand_two_pow (p : Linearized F) (place : ℕ) :
    p.expand.coefficient (2 ^ place) = p.linear.getD place 0 := by
  rw [← DensePoly.coeff_toPolynomial,
    toPolynomial_expand_eq_sum (le_max_left p.linear.length (place + 1))]
  simp [coeff_X_pow, coeff_C]

/-- A polynomial that does not end with zero is determined by what is written out. -/
theorem expand_injOn : Set.InjOn (expand : Linearized F → DensePoly F) {p | p.Normal} := by
  rintro ⟨constant, linear⟩ hp ⟨otherConstant, otherLinear⟩ hq hequal
  have hconstant : constant = otherConstant := by
    have := congrArg (DensePoly.coefficient · 0) hequal
    simpa only [coefficient_expand_zero] using this
  have hlinear : linear = otherLinear := eq_of_getD_eq hp hq fun place => by
    have := congrArg (DensePoly.coefficient · (2 ^ place)) hequal
    simpa only [coefficient_expand_two_pow] using this
  rw [hconstant, hlinear]

/-- What joins coefficients in a linear way joins what is written out. -/
private theorem toPolynomial_expand_combine (join : F → F → F) {a b : F}
    (linear : ∀ x y, join x y = a * x + b * y) (p q : Linearized F) :
    (combine join p q).expand.toPolynomial =
      C a * p.expand.toPolynomial + C b * q.expand.toPolynomial := by
  have hzero : join 0 0 = 0 := by rw [linear, mul_zero, mul_zero, add_zero]
  have hentry (place : ℕ) : (combine join p q).linear.getD place 0 =
      a * p.linear.getD place 0 + b * q.linear.getD place 0 := by
    rw [combine, ofParts, getD_trim, getD_combineLinear hzero, linear]
  have hconstant : (combine join p q).constant = a * p.constant + b * q.constant := linear _ _
  obtain ⟨count, hjoined, hp, hq⟩ : ∃ count, (combine join p q).linear.length ≤ count ∧
      p.linear.length ≤ count ∧ q.linear.length ≤ count :=
    ⟨(combine join p q).linear.length + p.linear.length + q.linear.length,
      by omega, by omega, by omega⟩
  rw [toPolynomial_expand_eq_sum hjoined, toPolynomial_expand_eq_sum hp,
    toPolynomial_expand_eq_sum hq, hconstant]
  simp only [hentry, C_add, C_mul, add_mul, Finset.sum_add_distrib, mul_add, Finset.mul_sum,
    mul_assoc]
  ring

theorem expand_add (p q : Linearized F) : (p + q).expand = p.expand + q.expand := by
  apply DensePoly.toPolynomial_injective
  have hlinear (x y : F) : x + y = 1 * x + 1 * y := by rw [one_mul, one_mul]
  rw [DensePoly.toPolynomial_add]
  refine (toPolynomial_expand_combine (· + ·) hlinear p q).trans ?_
  rw [C_1, one_mul, one_mul]

theorem expand_sub (p q : Linearized F) : (p - q).expand = p.expand - q.expand := by
  apply DensePoly.toPolynomial_injective
  have hlinear (x y : F) : x - y = 1 * x + -1 * y := by
    rw [one_mul, neg_one_mul, sub_eq_add_neg]
  rw [DensePoly.toPolynomial_sub]
  refine (toPolynomial_expand_combine (· - ·) hlinear p q).trans ?_
  rw [C_1, one_mul, C_neg, C_1, neg_one_mul, sub_eq_add_neg]

theorem expand_scale (p : Linearized F) (factor : F) :
    (p.scale factor).expand = p.expand.scale factor := by
  apply DensePoly.toPolynomial_injective
  have hconstant : (p.scale factor).constant = p.constant * factor := rfl
  rw [DensePoly.toPolynomial_scale,
    toPolynomial_expand_eq_sum (le_max_left (p.scale factor).linear.length p.linear.length),
    toPolynomial_expand_eq_sum (le_max_right (p.scale factor).linear.length p.linear.length),
    hconstant, mul_add, Finset.mul_sum, C_mul, mul_comm (C factor)]
  simp only [getD_linear_scale, C_mul]
  refine congrArg (_ + ·) (Finset.sum_congr rfl fun place _ => ?_)
  ring

theorem evaluate_expand (p : Linearized F) (point : F) :
    p.expand.evaluate point = p.evaluate point := by
  rw [DensePoly.evaluate_eq_eval, toPolynomial_expand_eq_terms, eval_toPolynomial_terms]

/-- The degree of a polynomial that does not end with zero is that of what is written out. -/
theorem Normal.degree_expand {p : Linearized F} (normal : p.Normal) :
    p.expand.degree = p.degree := by
  rw [DensePoly.degree_eq_natDegree, toPolynomial_expand_eq_terms]
  rcases normal.eq_zero_or_leads with rfl | ⟨leading, hleads⟩
  · rw [terms, if_pos rfl]
    exact natDegree_zero
  · exact hleads.natDegree_toPolynomial

/-- In characteristic two the square that doubles all exponents is the square. -/
theorem expand_square [CharP F 2] (p : Linearized F) :
    p.square.expand = p.expand.multiply p.expand := by
  apply DensePoly.toPolynomial_injective
  have hconstant : p.square.constant = p.constant * p.constant := rfl
  have hpower (place : ℕ) : (X : F[X]) ^ 2 ^ (place + 1) = X ^ 2 ^ place * X ^ 2 ^ place := by
    rw [pow_succ, pow_mul, sq]
  rw [DensePoly.toPolynomial_multiply, toPolynomial_expand_eq_sum p.length_square_le,
    toPolynomial_expand_eq_sum le_rfl, CharTwo.add_mul_self, CharTwo.sum_mul_self,
    Finset.sum_range_succ', getD_linear_square_zero, C_0, zero_mul, add_zero, hconstant, C_mul]
  refine congrArg (_ + ·) (Finset.sum_congr rfl fun place _ => ?_)
  rw [getD_linear_square, hpower, C_mul]
  ring

end Expansion

section Words

omit [FiniteField F] in
theorem checkExponents_eq_ok {p : Linearized F} (words : p.linear.length ≤ wordBits) :
    p.checkExponents = .ok () :=
  if_pos words

theorem terms?_eq_ok {p : Linearized F} (words : p.linear.length ≤ wordBits) :
    p.terms? = .ok p.terms := by
  rw [terms?, checkExponents_eq_ok words]
  rfl

/-- A polynomial is written out if there is room for it. -/
theorem Normal.expand?_eq_ok {p : Linearized F} (normal : p.Normal)
    (words : p.linear.length ≤ wordBits)
    (room : (p.degree + 1) * FiniteField.width F < addressableBytes) :
    p.expand? = .ok p.expand := by
  rw [← normal.degree_terms] at room
  exact VanishingPolynomial.toDense?_eq_ok (z := .linearized p) (terms?_eq_ok words) room

end Words

variable [LawfulField F]

/-- A linearized polynomial stands for what is written out of it. Exactly those that do not end with
zero can be built, and they are equal exactly if they are so when written out. Sums, differences and
multiples may be taken before or after, and so may values, degrees and, in characteristic two,
squares. The degree is refused only if there are more coefficients than a word has bits, and writing
out only if there is no room for the coefficients. -/
theorem faithful_of_built :
    (∀ p : Linearized F, Built p ↔ p.linear.getLast? ≠ some 0) ∧
      ∀ p : Linearized F, Built p →
        (∀ q, Built q → (p = q ↔ p.expand = q.expand)) ∧
        (∀ q, Built q → (p + q).expand = p.expand + q.expand ∧
          (p - q).expand = p.expand - q.expand) ∧
        (∀ factor, (p.scale factor).expand = p.expand.scale factor) ∧
        p.degree = p.expand.degree ∧
        (∀ point, p.evaluate point = p.expand.evaluate point) ∧
        (CharP F 2 → p.square.expand = p.expand.multiply p.expand) ∧
        (p.linear.length ≤ wordBits → p.degree? = .ok p.expand.degree ∧
          ((p.degree + 1) * FiniteField.width F < addressableBytes →
            p.expand? = .ok p.expand)) := by
  refine ⟨fun p => built_iff_normal, fun p hp => ?_⟩
  have hnormal := hp.normal
  refine ⟨fun q hq => ⟨congrArg expand, fun hequal => expand_injOn hnormal hq.normal hequal⟩,
    fun q _ => ⟨expand_add p q, expand_sub p q⟩, expand_scale p, hnormal.degree_expand.symm,
    fun point => (evaluate_expand p point).symm, fun _ => expand_square p, fun hwords => ⟨?_, ?_⟩⟩
  · rw [degree?, checkExponents_eq_ok hwords, hnormal.degree_expand]
    rfl
  · exact hnormal.expand?_eq_ok hwords

/-- The sum of `x` and `7 + x + 2 * x²` over the binary field, in which `x` cancels. -/
def cancelled : Linearized BinaryField := identity + ofCoefficients [⟨7⟩, 1, ⟨2⟩]

/-- The difference of a polynomial and itself ends with zeros only, and none of them is kept. -/
theorem faithful_of_cancelled :
    Built cancelled ∧ (cancelled - cancelled).linear.getLast? ≠ some 0 ∧
      cancelled.degree? = .ok 2 ∧ cancelled.expand? = .ok (.ofCoefficients #[⟨7⟩, 0, ⟨2⟩]) ∧
      cancelled.expand.evaluate ⟨3⟩ = ⟨13⟩ ∧ cancelled ≠ cancelled.square ∧
      cancelled.square.expand = cancelled.expand.multiply cancelled.expand := by
  have hbuilt : Built cancelled := .add .identity (.ofCoefficients _)
  have hbinary : CharP BinaryField 2 := FiniteField.isBinary_iff.mp (by decide)
  obtain ⟨hnormal, hfaithful⟩ := faithful_of_built (F := BinaryField)
  obtain ⟨hequal, -, -, hdegree, hvalue, hsquare, hwords⟩ := hfaithful cancelled hbuilt
  obtain ⟨hdegree?, hexpand?⟩ := hwords (by decide)
  refine ⟨hbuilt, (hnormal _).mp (.sub hbuilt hbuilt), ?_, (hexpand? (by decide)).trans ?_,
    (hvalue _).symm.trans ?_, mt (hequal _ (.square hbuilt)).mp ?_, hsquare hbinary⟩
  · rw [hdegree?, ← hdegree]
    rfl
  all_goals decide +kernel

end Linearized
end OracleProofs

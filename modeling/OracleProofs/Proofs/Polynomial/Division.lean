/-
# Division by linearized and by vanishing polynomials

A linearized polynomial that is not zero has a leading term, so division by its terms is
division with remainder by what is written out of it, and no other pair is a quotient and a
remainder. The same is true of every polynomial in the form of a vanishing polynomial but
for one kind: if a constant is subtracted from a power that is constant itself, there are
two terms with one exponent, and division looks at the second of them only. Its quotient is
then the dividend, which is wrong for every dividend other than zero.
-/

import Mathlib
import OracleProofs.Proofs.Polynomial.Expansion

namespace OracleProofs

open Polynomial

variable {F : Type} [FiniteField F]

namespace Linearized

section Trimmed

/-- Zeros at the end make no terms. -/
theorem linearTerms_trim (exponent : ℕ) (linear : List F) :
    linearTerms exponent (trim linear) = linearTerms exponent linear := by
  fun_induction trim generalizing exponent with
  | case1 => rfl
  | case2 rest hrest ih =>
      have hlater := ih (2 * exponent)
      rw [hrest, linearTerms] at hlater
      simp [linearTerms, ← hlater]
  | case3 first rest hrest hne ih =>
      have hlater := ih (2 * exponent)
      rw [hrest, linearTerms] at hlater
      simp [linearTerms, ← hlater]
  | case4 first rest hkept ih =>
      rw [linearTerms, linearTerms, ih]

theorem length_trim_le (linear : List F) : (trim linear).length ≤ linear.length := by
  fun_induction trim with
  | case1 => exact le_rfl
  | case2 => exact Nat.zero_le _
  | case3 => simp
  | case4 first rest hkept ih => exact Nat.succ_le_succ ih

theorem terms_ofParts (p : Linearized F) : (ofParts p.constant p.linear).terms = p.terms := by
  rw [terms, terms, ofParts, linearTerms_trim]

omit [FiniteField F] in
/-- More coefficients do not lower the degree. -/
theorem degree_mono {p q : Linearized F} (shorter : p.linear.length ≤ q.linear.length) :
    p.degree ≤ q.degree := by
  rw [degree, degree]
  split
  · exact Nat.zero_le _
  · split
    · omega
    · rw [Nat.one_shiftLeft, Nat.one_shiftLeft]
      exact Nat.pow_le_pow_right two_pos (by omega)

/-- A polynomial without terms is zero, and in any other one a term leads, no higher than the
degree. -/
theorem terms_eq_nil_or_leads (p : Linearized F) :
    p.terms = [] ∨ ∃ degree ≤ p.degree, ∃ leading, p.terms.Leads degree leading := by
  have hshorter : (ofParts p.constant p.linear).degree ≤ p.degree :=
    degree_mono (length_trim_le p.linear)
  rw [← terms_ofParts]
  rcases (normal_ofParts p.constant p.linear).eq_zero_or_leads with hzero | ⟨leading, hleads⟩
  · rw [hzero, terms, if_pos rfl]
    exact .inl rfl
  · exact .inr ⟨_, hshorter, leading, hleads⟩

end Trimmed

end Linearized

namespace Terms

section Flat

variable {terms : Terms F}

theorem getD_accumulate_of_flat (flat : ∀ term ∈ terms, term.1 = 0) {exponent shift : ℕ}
    (ne : exponent ≠ shift) (factor : F) (coefficients : Array F) :
    (terms.accumulate shift factor coefficients).getD exponent 0 =
      coefficients.getD exponent 0 := by
  induction terms generalizing coefficients with
  | nil => rfl
  | cons first rest ih =>
      have hfirst : first.1 = 0 := flat first List.mem_cons_self
      have hrest := ih (fun term hmem => flat term (List.mem_cons_of_mem _ hmem))
        (addTerm coefficients (first.1 + shift) (factor * first.2))
      refine hrest.trans ?_
      simp [addTerm, hfirst, Array.getD_eq_getD_getElem?, Array.getElem?_modify, ne.symm]

private theorem getD_setIfInBounds {values : Array F} {place : ℕ} (inside : place < values.size)
    (entry : F) (exponent : ℕ) : (values.setIfInBounds place entry).getD exponent 0 =
      if exponent = place then entry else values.getD exponent 0 := by
  simp only [Array.getD_eq_getD_getElem?, Array.getElem?_setIfInBounds]
  by_cases hequal : exponent = place
  · rw [if_pos hequal, if_pos hequal.symm, if_pos inside, Option.getD_some]
  · rw [if_neg hequal, if_neg (Ne.symm hequal)]

/-- What holds before the step at a place, if all exponents are zero: the quotient has the entries
of the dividend above and none below, and the remainder has not changed below. -/
private structure Copied (dividend : Array F) (place : ℕ) (state : Division F) : Prop where
  size_quotient : state.quotient.size = dividend.size
  copied : ∀ exponent ≥ place, state.quotient.getD exponent 0 = dividend.getD exponent 0
  unset : ∀ exponent < place, state.quotient.getD exponent 0 = 0
  kept : ∀ exponent < place, state.remainder.getD exponent 0 = dividend.getD exponent 0

variable [LawfulField F] {dividend : Array F}

private theorem Copied.divideStep (flat : ∀ term ∈ terms, term.1 = 0) {place : ℕ}
    (inside : place < dividend.size) {state : Division F}
    (copied : Copied dividend (place + 1) state) :
    Copied dividend place (divideStep terms 0 1 place state) := by
  have hentry : state.remainder.getD (place + 0) 0 * 1 = dividend.getD place 0 := by
    rw [mul_one, Nat.add_zero, copied.kept place (Nat.lt_succ_self _)]
  rw [Terms.divideStep, hentry]
  by_cases hzero : dividend.getD place 0 = 0
  · simp only [if_pos hzero]
    refine ⟨copied.size_quotient, fun exponent hle => ?_,
      fun exponent hlt => copied.unset exponent (by omega),
      fun exponent hlt => copied.kept exponent (by omega)⟩
    by_cases hequal : exponent = place
    · rw [hequal, hzero, copied.unset place (Nat.lt_succ_self _)]
    · exact copied.copied exponent (by omega)
  · simp only [if_neg hzero]
    have hquotient : place < state.quotient.size := by rwa [copied.size_quotient]
    refine ⟨?_, fun exponent hle => ?_, fun exponent hlt => ?_, fun exponent hlt => ?_⟩
    · rw [Array.size_setIfInBounds, copied.size_quotient]
    · rw [getD_setIfInBounds hquotient]
      by_cases hequal : exponent = place
      · rw [if_pos hequal, hequal]
      · rw [if_neg hequal, copied.copied exponent (by omega)]
    · rw [getD_setIfInBounds hquotient, if_neg hlt.ne, copied.unset exponent (by omega)]
    · rw [getD_accumulate_of_flat flat hlt.ne, copied.kept exponent (by omega)]

private theorem Copied.divideSteps (flat : ∀ term ∈ terms, term.1 = 0) {count : ℕ}
    (inside : count ≤ dividend.size) {state : Division F}
    (copied : Copied dividend count state) :
    Copied dividend 0 (divideSteps terms 0 1 count state) := by
  induction count generalizing state with
  | zero => exact copied
  | succ place ih => exact ih (by omega) (copied.divideStep flat (by omega))

/-- If all exponents are zero and the last coefficient is one, the dividend becomes the quotient,
whatever the other coefficients are. -/
theorem divide_of_flat (flat : ∀ term ∈ terms, term.1 = 0) (last : terms.getLast? = some (0, 1))
    (dividend : Array F) :
    polynomialOf (terms.divide dividend).quotient = polynomialOf dividend ∧
      polynomialOf (terms.divide dividend).remainder = 0 := by
  simp only [divide, last, inv_one]
  by_cases hempty : dividend.size ≤ 0
  · obtain rfl : dividend = #[] := Array.size_eq_zero_iff.mp (by omega)
    exact ⟨rfl, rfl⟩
  · rw [if_neg hempty, Nat.sub_zero]
    have hstart : Copied dividend dividend.size ⟨Array.replicate dividend.size 0, dividend⟩ := by
      refine ⟨Array.size_replicate, fun exponent hle => ?_, fun exponent hlt => ?_,
        fun _ _ => rfl⟩
      · rw [Array.getD_eq_getD_getElem?, Array.getD_eq_getD_getElem?,
          Array.getElem?_eq_none (by simpa using hle), Array.getElem?_eq_none hle]
      · rw [Array.getD_eq_getD_getElem?, Array.getElem?_replicate, if_pos hlt, Option.getD_some]
    have hend := hstart.divideSteps flat le_rfl
    refine ⟨polynomialOf_eq_iff.mpr fun exponent => hend.copied exponent (Nat.zero_le _), ?_⟩
    rw [Array.take_eq_extract, Array.extract_zero]
    rfl

end Flat

end Terms

namespace VanishingPolynomial

section Shape

/-- Whether all exponents are words, of which those of powers are anyway. -/
def WordExponents : VanishingPolynomial F → Prop
  | .powerMinus _ _ => True
  | .linearized p => p.linear.length ≤ wordBits

/-- Whether two terms have the same exponent, because a constant is subtracted from a power that is
a constant itself. -/
def Collapsed : VanishingPolynomial F → Prop
  | .powerMinus degree constant => degree = 0 ∧ constant ≠ 0
  | .linearized _ => False

theorem terms?_eq_ok {z : VanishingPolynomial F} (words : z.WordExponents) :
    z.terms? = .ok z.terms := by
  cases z with
  | powerMinus degree constant => rfl
  | linearized p => exact Linearized.terms?_eq_ok words

omit [FiniteField F] in
theorem degree?_eq_ok {z : VanishingPolynomial F} (words : z.WordExponents) :
    z.degree? = .ok z.degree := by
  cases z with
  | powerMinus degree constant => rfl
  | linearized p =>
      rw [degree?, Linearized.degree?, Linearized.checkExponents_eq_ok words]
      rfl

theorem degree_terms_powerMinus (degree : ℕ) (constant : F) :
    (terms (.powerMinus degree constant)).degree = degree := by
  rw [terms]
  split <;> rfl

theorem bounded_terms (z : VanishingPolynomial F) :
    ∀ term ∈ z.terms, term.1 ≤ z.terms.degree := by
  cases z with
  | powerMinus degree constant =>
      rw [degree_terms_powerMinus, terms]
      split <;> simp
  | linearized p => exact Terms.bounded_of_sorted p.pairwise_terms

theorem degree_terms_le (z : VanishingPolynomial F) : z.terms.degree ≤ z.degree := by
  cases z with
  | powerMinus degree constant => exact (degree_terms_powerMinus degree constant).le
  | linearized p =>
      rcases p.terms_eq_nil_or_leads with hnil | ⟨degree, hle, leading, hleads⟩
      · rw [terms, hnil]
        exact Nat.zero_le _
      · exact hleads.degree_eq.trans_le hle

theorem productSize_terms_le (z : VanishingPolynomial F) (length : ℕ) :
    z.terms.productSize length ≤ length + z.degree := by
  rw [Terms.productSize]
  split
  · exact Nat.zero_le _
  · exact Nat.add_le_add_left z.degree_terms_le length

variable [LawfulField F]

theorem toPolynomial_toDense_eq (z : VanishingPolynomial F) :
    z.toDense.toPolynomial = z.terms.toPolynomial :=
  toPolynomial_toDense_of_bounded z.bounded_terms

theorem terms_ne_nil {z : VanishingPolynomial F} (nonzero : z.toDense ≠ 0) : z.terms ≠ [] := by
  intro hnil
  refine nonzero (DensePoly.toPolynomial_injective ?_)
  rw [toPolynomial_toDense_eq, hnil]
  rfl

/-- One term leads unless the polynomial is zero or two of its terms have the same exponent. -/
theorem exists_leads {z : VanishingPolynomial F} (nonzero : z.toDense ≠ 0)
    (ordered : ¬z.Collapsed) : ∃ degree ≤ z.degree, ∃ leading, z.terms.Leads degree leading := by
  cases z with
  | powerMinus degree constant =>
      refine ⟨degree, le_rfl, 1, ?_⟩
      rcases Nat.eq_zero_or_pos degree with rfl | hpositive
      · obtain rfl : constant = 0 := by simpa [Collapsed] using ordered
        rw [terms, if_pos rfl]
        exact ⟨rfl, List.pairwise_singleton _ _, one_ne_zero⟩
      · exact leads_terms_powerMinus hpositive constant
  | linearized p => exact p.terms_eq_nil_or_leads.resolve_left (terms_ne_nil nonzero)

theorem eval_toPolynomial_terms (z : VanishingPolynomial F) (point : F) :
    z.terms.toPolynomial.eval point = z.evaluate point := by
  cases z with
  | powerMinus degree constant =>
      rw [toPolynomial_terms_powerMinus, evaluate, power_eq_pow]
      simp
  | linearized p => exact p.eval_toPolynomial_terms point

end Shape

section Dense

variable [LawfulField F] {z : VanishingPolynomial F}

/-- A divisor of degree zero is taken for one, whatever the constant is. -/
theorem divide_powerMinus_zero (constant : F) (p : DensePoly F) :
    divide (.powerMinus 0 constant) p = ⟨p, 0⟩ := by
  have hflat : ∀ term ∈ terms (.powerMinus 0 constant), term.1 = 0 := by
    rw [terms]
    split <;> simp
  have hlast : (terms (.powerMinus 0 constant)).getLast? = some (0, 1) := by
    rw [terms]
    split <;> rfl
  obtain ⟨hquotient, hremainder⟩ := Terms.divide_of_flat hflat hlast p.coefficients
  have hq : (divide (.powerMinus 0 constant) p).quotient = p := DensePoly.toPolynomial_injective
    ((DensePoly.toPolynomial_ofCoefficients _).trans hquotient)
  have hr : (divide (.powerMinus 0 constant) p).remainder = 0 := DensePoly.toPolynomial_injective
    ((DensePoly.toPolynomial_ofCoefficients _).trans hremainder)
  rw [← hr]
  nth_rewrite 2 [← hq]
  rfl

theorem Collapsed.divide_eq (collapsed : z.Collapsed) (p : DensePoly F) :
    z.divide p = ⟨p, 0⟩ := by
  cases z with
  | powerMinus degree constant =>
      obtain ⟨rfl, -⟩ := collapsed
      exact divide_powerMinus_zero constant p
  | linearized p => exact collapsed.elim

/-- Where a constant is subtracted from one, the difference is not one. -/
theorem Collapsed.multiply_eq_self_iff (collapsed : z.Collapsed) (p : DensePoly F) :
    z.multiply p = p ↔ p = 0 := by
  cases z with
  | powerMinus degree constant =>
      obtain ⟨rfl, hne⟩ := collapsed
      have hp : p = 0 ↔ p.toPolynomial = 0 := DensePoly.toPolynomial_injective.eq_iff.symm
      rw [← DensePoly.toPolynomial_injective.eq_iff, toPolynomial_multiply (bounded_terms _),
        toPolynomial_terms_powerMinus, pow_zero, sub_mul, one_mul, sub_eq_self, mul_eq_zero,
        C_eq_zero, or_iff_right hne, hp]
  | linearized p => exact collapsed.elim

theorem length_remainder_le (nonzero : z.toDense ≠ 0) (p : DensePoly F) :
    (z.divide p).remainder.length ≤ z.degree := by
  by_cases hcollapsed : z.Collapsed
  · rw [hcollapsed.divide_eq]
    exact Nat.zero_le _
  · obtain ⟨degree, hle, leading, hleads⟩ := exists_leads nonzero hcollapsed
    exact (DensePoly.length_le_iff.mpr (divide_spec hleads p).2).trans hle

/-- Quotient and remainder lead back to the dividend, but for a divisor with two terms of one
exponent. -/
theorem eq_multiply_add_iff (nonzero : z.toDense ≠ 0) (p : DensePoly F) :
    p = z.multiply (z.divide p).quotient + (z.divide p).remainder ↔ ¬z.Collapsed ∨ p = 0 := by
  by_cases hcollapsed : z.Collapsed
  · rw [or_iff_right (not_not_intro hcollapsed), ← hcollapsed.multiply_eq_self_iff,
      hcollapsed.divide_eq, eq_comm, ← DensePoly.toPolynomial_injective.eq_iff,
      DensePoly.toPolynomial_add, DensePoly.toPolynomial_zero, add_zero,
      DensePoly.toPolynomial_injective.eq_iff]
  · obtain ⟨degree, -, leading, hleads⟩ := exists_leads nonzero hcollapsed
    refine iff_of_true (DensePoly.toPolynomial_injective ?_) (.inl hcollapsed)
    rw [DensePoly.toPolynomial_add, toPolynomial_multiply z.bounded_terms]
    exact (divide_spec hleads p).1

/-- Division undoes multiplication, with the same exception. -/
theorem divide_multiply_iff (nonzero : z.toDense ≠ 0) (q : DensePoly F) :
    z.divide (z.multiply q) = ⟨q, 0⟩ ↔ ¬z.Collapsed ∨ q = 0 := by
  by_cases hcollapsed : z.Collapsed
  · rw [or_iff_right (not_not_intro hcollapsed), ← hcollapsed.multiply_eq_self_iff,
      hcollapsed.divide_eq, Quotient.mk.injEq, and_iff_left rfl]
  · obtain ⟨degree, -, leading, hleads⟩ := exists_leads nonzero hcollapsed
    refine iff_of_true ((divide_eq_iff hleads).mpr ⟨?_, Nat.zero_le _⟩) (.inl hcollapsed)
    rw [toPolynomial_multiply z.bounded_terms, DensePoly.toPolynomial_zero, add_zero]

/-- The product with the quotient has no more coefficients than the dividend. -/
theorem productSize_quotient_le {degree : ℕ} {leading : F} (leads : z.terms.Leads degree leading)
    (p : DensePoly F) : z.terms.productSize (z.divide p).quotient.length ≤ p.length := by
  have hquotient : (z.divide p).quotient.length ≤ p.length - degree :=
    (DensePoly.length_ofCoefficients_le _).trans (leads.size_quotient p.coefficients).le
  rw [Terms.productSize, leads.degree_eq]
  by_cases hzero : (z.divide p).quotient.length = 0
  · simp [hzero]
  · split <;> omega

/-- A vanishing polynomial that is given by its parts computes like the dense polynomial that is
written out of it, and not zero. Values and products agree, and quotient and remainder of a
dividend lead back to it with a remainder no longer than the degree. There is one exception: if a
constant other than zero is subtracted from the power with exponent zero, division takes the divisor
for one, and leads back to no dividend but zero. -/
theorem computes_like_toDense (words : z.WordExponents) (nonzero : z.toDense ≠ 0) :
    (∀ point, z.evaluate point = z.toDense.evaluate point) ∧
      (∀ p, z.multiply p = z.toDense.multiply p) ∧
      (∀ p, ∃ division, z.divide? p = .ok division ∧ division.remainder.length ≤ z.degree ∧
        (p = z.multiply division.quotient + division.remainder ↔ ¬z.Collapsed ∨ p = 0)) ∧
      (∀ q, ∃ division, z.divide? (z.multiply q) = .ok division ∧
        (division = ⟨q, 0⟩ ↔ ¬z.Collapsed ∨ q = 0)) ∧
      z.degree? = .ok z.degree ∧
      ((z.degree + 1) * FiniteField.width F < addressableBytes →
        z.toDense? = .ok z.toDense) ∧
      ∀ p, (p.length + z.degree) * FiniteField.width F < addressableBytes →
        z.multiply? p = .ok (z.multiply p) := by
  have hterms := terms?_eq_ok words
  have hdivide := divide?_of_ne_nil (terms_ne_nil nonzero) hterms
  refine ⟨fun point => ?_, fun p => ?_,
    fun p => ⟨_, hdivide p, length_remainder_le nonzero p, eq_multiply_add_iff nonzero p⟩,
    fun q => ⟨_, hdivide _, divide_multiply_iff nonzero q⟩, degree?_eq_ok words,
    fun hroom => ?_, fun p hroom => ?_⟩
  · rw [DensePoly.evaluate_eq_eval, toPolynomial_toDense_eq, eval_toPolynomial_terms]
  · apply DensePoly.toPolynomial_injective
    rw [toPolynomial_multiply z.bounded_terms, DensePoly.toPolynomial_multiply,
      toPolynomial_toDense_eq]
  · exact toDense?_eq_ok hterms ((Nat.mul_le_mul_right _
      (Nat.add_le_add_right z.degree_terms_le 1)).trans_lt hroom)
  · exact multiply?_eq_ok hterms
      ((Nat.mul_le_mul_right _ (z.productSize_terms_le p.length)).trans_lt hroom)

/-- The polynomial `7 + 2 * x²` has one term between zeros, and no exponent twice. -/
theorem computes_like_toDense_of_cancelled :
    WordExponents (.linearized Linearized.cancelled) ∧
      toDense (.linearized Linearized.cancelled) ≠ 0 ∧
      toDense? (.linearized Linearized.cancelled) = .ok (.ofCoefficients #[⟨7⟩, 0, ⟨2⟩]) ∧
      (toDense (.linearized Linearized.cancelled)).evaluate ⟨3⟩ = ⟨13⟩ ∧
      ∀ q, ∃ division, divide? (.linearized Linearized.cancelled)
          (multiply (.linearized Linearized.cancelled) q) = .ok division ∧
        division = ⟨q, 0⟩ := by
  have hwords : WordExponents (.linearized Linearized.cancelled) := by
    rw [WordExponents]
    decide
  have hnonzero : toDense (.linearized Linearized.cancelled) ≠ 0 := by decide +kernel
  obtain ⟨hvalue, -, -, hback, -, hdense, -⟩ := computes_like_toDense hwords hnonzero
  refine ⟨hwords, hnonzero, (hdense (by decide +kernel)).trans ?_, (hvalue _).symm.trans ?_,
    fun q => ?_⟩
  · decide +kernel
  · decide +kernel
  · obtain ⟨division, hok, hdivision⟩ := hback q
    exact ⟨division, hok, hdivision.mpr (.inl not_false)⟩

/-- Division by `1 - 5` takes `8` for the quotient of `8`. The quotient is `-2`. -/
theorem not_eq_multiply_add_of_collapsed :
    toDense (.powerMinus 0 (.ofNat 5 : BabyBear)) ≠ 0 ∧
      (.ofCoefficients #[.ofNat 8] : DensePoly BabyBear) =
        multiply (.powerMinus 0 (.ofNat 5)) (.ofCoefficients #[-.ofNat 2]) + 0 ∧
      ∃ division, divide? (.powerMinus 0 (.ofNat 5)) (.ofCoefficients #[.ofNat 8]) =
          .ok division ∧
        division.quotient = (.ofCoefficients #[.ofNat 8] : DensePoly BabyBear) ∧
        (.ofCoefficients #[.ofNat 8] : DensePoly BabyBear) ≠
          multiply (.powerMinus 0 (.ofNat 5)) division.quotient + division.remainder := by
  refine ⟨by decide +kernel, by decide +kernel, _, rfl, ?_⟩
  decide +kernel

end Dense

end VanishingPolynomial

namespace Linearized

variable [LawfulField F]

/-- Division by a polynomial that is not zero answers with the quotient and the remainder, and with
these only: no other pair of polynomials satisfies the equation with a remainder no longer than the
degree, which is none if the divisor is a constant. The product with the quotient is not refused,
because it is no longer than the dividend. -/
theorem divide?_euclidean {p : Linearized F} (normal : p.Normal)
    (words : p.linear.length ≤ wordBits) (nonzero : p.isZero = false) (dividend : DensePoly F) :
    ∃ division, p.divide? dividend = .ok division ∧
      (∀ q r, division = ⟨q, r⟩ ↔
        dividend = q.multiply p.expand + r ∧ r.length ≤ p.degree) ∧
      p.multiply division.quotient + division.remainder = dividend ∧
      (dividend.length * FiniteField.width F < addressableBytes →
        p.multiply? division.quotient = .ok (p.multiply division.quotient)) := by
  obtain ⟨leading, hleads⟩ : ∃ leading,
      (VanishingPolynomial.terms (.linearized p)).Leads p.degree leading := by
    refine normal.eq_zero_or_leads.resolve_left ?_
    rintro rfl
    simp [isZero] at nonzero
  have hterms : VanishingPolynomial.terms? (.linearized p) = .ok p.terms := terms?_eq_ok words
  refine ⟨_, VanishingPolynomial.divide?_eq_ok hleads hterms dividend, fun q r => ?_, ?_,
    fun hroom => ?_⟩
  · rw [VanishingPolynomial.divide_eq_iff hleads, ← DensePoly.toPolynomial_injective.eq_iff,
      DensePoly.toPolynomial_add, DensePoly.toPolynomial_multiply, toPolynomial_expand_eq_terms,
      mul_comm]
    rfl
  · apply DensePoly.toPolynomial_injective
    rw [DensePoly.toPolynomial_add]
    refine Eq.trans ?_ (VanishingPolynomial.divide_spec hleads dividend).1.symm
    congr 1
    exact VanishingPolynomial.toPolynomial_multiply hleads.bounded _
  · exact VanishingPolynomial.multiply?_eq_ok hterms ((Nat.mul_le_mul_right _
      (VanishingPolynomial.productSize_quotient_le hleads dividend)).trans_lt hroom)

/-- The polynomial `3 + 2 * x + 5 * x ^ 4`. -/
def trinomial : Linearized Goldilocks := ofParts (.ofNat 3) [.ofNat 2, 0, .ofNat 5]

/-- A quotient and a remainder that satisfy the equation are the answer. -/
theorem divide?_euclidean_of_trinomial :
    trinomial.Normal ∧ trinomial.linear.length ≤ wordBits ∧ trinomial.isZero = false ∧
      trinomial.divide? (.ofCoefficients
          #[.ofNat 7, .ofNat 7, .ofNat 9, 0, .ofNat 10, .ofNat 5]) =
        .ok ⟨.ofCoefficients #[.ofNat 2, 1], .ofCoefficients #[1, 0, .ofNat 7]⟩ ∧
      trinomial.multiply? (.ofCoefficients #[.ofNat 2, 1]) =
        .ok (trinomial.multiply (.ofCoefficients #[.ofNat 2, 1])) := by
  have hnormal : trinomial.Normal := normal_ofParts _ _
  obtain ⟨division, hok, hunique, -, hroom⟩ := divide?_euclidean hnormal (by decide)
    (by decide) (.ofCoefficients #[.ofNat 7, .ofNat 7, .ofNat 9, 0, .ofNat 10, .ofNat 5])
  obtain rfl := (hunique (.ofCoefficients #[.ofNat 2, 1])
    (.ofCoefficients #[1, 0, .ofNat 7])).mpr (by decide +kernel)
  exact ⟨hnormal, by decide, by decide, hok, hroom (by decide +kernel)⟩

end Linearized
end OracleProofs

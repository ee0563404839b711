/-
# Values by doubling

In characteristic two a vector changes the value of a linearized polynomial by an amount that
does not depend on the point. Each vector of a basis doubles the points of the subspace: the
upper half are the points of the lower half, moved by the vector. The values at the upper half
are therefore those at the lower half, all changed by one amount, and one addition for each point
lists what the transform of the subspace finds for the polynomial written out.
-/

import Mathlib
import OracleProofs.Proofs.Domain.Subspace
import OracleProofs.Proofs.Polynomial.Expansion

namespace OracleProofs

open Polynomial

variable {F : Type} [FiniteField F] [LawfulField F]

namespace Linearized

theorem eval_toPolynomial_expand (p : Linearized F) (point : F) :
    p.expand.toPolynomial.eval point = p.evaluate point := by
  rw [← DensePoly.evaluate_eq_eval, evaluate_expand]

omit [LawfulField F] in
/-- The last vector of a basis doubles the list. -/
theorem valuesOverSpan_append (p : Linearized F) (basis : List F) (vector shift : F) :
    p.valuesOverSpan (basis ++ [vector]) shift =
      p.valuesOverSpan basis shift ++
        (p.valuesOverSpan basis shift).map (· + (p.evaluate vector - p.constant)) := by
  rw [valuesOverSpan, List.foldl_append]
  rfl

end Linearized

namespace AffineSubspace

section Doubling

variable [CharP F 2] (p : Linearized F) (basis : List F)

/-- The values at the moved points are those at the points, all changed by one amount. -/
theorem valuesOver_add_start (start vector : F) :
    valuesOver basis (start + vector) p.expand.toPolynomial =
      (valuesOver basis start p.expand.toPolynomial).map
        (· + (p.evaluate vector - p.constant)) := by
  rw [valuesOver, valuesOver, Array.map_ofFn]
  congr 1
  funext index
  rw [Function.comp_apply, Linearized.eval_toPolynomial_expand,
    Linearized.eval_toPolynomial_expand, pick_add_start, Linearized.evaluate_add_point]

/-- Doubling lists the values at all points. -/
theorem valuesOverSpan_eq_valuesOver (shift : F) :
    p.valuesOverSpan basis shift = valuesOver basis shift p.expand.toPolynomial := by
  -- from the end of the basis, where the list is doubled last
  induction basis using List.reverseRecOn with
  | nil =>
      refine Array.ext (by rw [size_valuesOver]; rfl) fun index hleft hright => ?_
      obtain rfl : index = 0 := by simpa using hright
      simp [Linearized.valuesOverSpan, valuesOver, pick, Linearized.eval_toPolynomial_expand]
  | append_singleton basis vector ih =>
      rw [Linearized.valuesOverSpan_append, ih, valuesOver_append, valuesOver_add_start]

end Doubling

/-- The fast evaluation of a linearized polynomial has one value for each point, the one of the
polynomial there. It agrees with the transform of the polynomial written out, which is refused only
if its exponents are not words or there is no room for its coefficients. -/
theorem evaluateLinearized_exact (space : AffineSubspace F) (p : Linearized F) :
    (space.evaluateLinearized p).size = 2 ^ space.dimension ∧
      (∀ index < 2 ^ space.dimension,
        (space.evaluateLinearized p)[index]? = some (p.evaluate (space.element index))) ∧
      space.evaluateLinearized p = space.evaluateAll p.expand.coefficients ∧
      (Linearized.Built p → p.linear.length ≤ wordBits →
        (p.degree + 1) * FiniteField.width F < addressableBytes → p.expand? = .ok p.expand) := by
  have := space.charTwo
  have hvalues : space.evaluateLinearized p = space.valuesOf p.expand.toPolynomial :=
    valuesOverSpan_eq_valuesOver p space.basis space.shift
  rw [hvalues, ← size_eq]
  refine ⟨space.size_valuesOf _, fun index hindex => ?_, ?_,
    fun hbuilt => hbuilt.normal.expand?_eq_ok⟩
  · rw [getElem?_valuesOf space _ hindex, Linearized.eval_toPolynomial_expand]
  · rw [evaluateAll_eq_valuesOf, DensePoly.toPolynomial]

/-- The polynomial `7 + x + 2 * x² + 3 * x⁴`, of larger degree than four points allow. -/
def quartic : Linearized BinaryField := .ofCoefficients [⟨7⟩, 1, ⟨2⟩, ⟨3⟩]

theorem evaluateLinearized_at_four_points :
    (fourPoints.evaluateLinearized quartic).size = 4 ∧
      (fourPoints.evaluateLinearized quartic)[3]? = some (quartic.evaluate ⟨4⟩) ∧
      quartic.expand? = .ok quartic.expand ∧
      fourPoints.evaluateLinearized quartic = fourPoints.evaluateAll #[⟨7⟩, 1, ⟨2⟩, 0, ⟨3⟩] := by
  obtain ⟨hsize, hvalues, htransform, hexpand⟩ := evaluateLinearized_exact fourPoints quartic
  have hcoefficients : quartic.expand.coefficients = #[⟨7⟩, 1, ⟨2⟩, 0, ⟨3⟩] := by decide +kernel
  have hpoint : fourPoints.element 3 = ⟨4⟩ := by decide +kernel
  rw [hcoefficients] at htransform
  rw [← hpoint]
  exact ⟨hsize, hvalues 3 (by decide), hexpand (.ofCoefficients _) (by decide) (by decide),
    htransform⟩

end AffineSubspace
end OracleProofs

/-
# Whether the openings see the summation domain

A leaf of the secret tree holds values at points of the codeword domain, and a mask moves
a secret only outside the summation domain. Of two cosets the larger contains the smaller
or does not meet it, and which of the two it is depends on the shifts, raised to the size
of the larger. The checks of the parameters compare sizes only. So for shifts with different
powers no opening shows a secret on the summation domain, and for shifts with the same
power every value there stands in a leaf, whatever the mask.
-/

import Mathlib
import OracleProofs.Proofs.Domain.Masking
import OracleProofs.Proofs.Sumcheck.Hiding
import OracleProofs.Proofs.Sumcheck.Prover

namespace OracleProofs
namespace Sumcheck

variable {F : Type} [FiniteField F] [LawfulField F] {parameters : Parameters F}

namespace Parameters

theorem WellFormed.summation_dimension_le (wf : parameters.WellFormed) :
    parameters.summation.dimension ≤ parameters.codewordDomain.dimension := by
  have hle : parameters.summation.size ≤ parameters.codewordDomain.size :=
    wf.summation_lt.le.trans wf.fri.degreeBound_le
  rw [Coset.size_eq, Coset.size_eq] at hle
  exact (Nat.pow_le_pow_iff_right one_lt_two).mp hle

theorem evaluate_vanishing_eq_zero_iff (parameters : Parameters F) (a : F) :
    parameters.vanishing.evaluate a = 0 ↔ a ∈ parameters.summation.points := by
  rw [vanishing, Coset.evaluate_vanishing, Coset.eval_vanishingPolynomial_eq_zero_iff]

/-- A mask leaves the values on the summation domain. -/
theorem evaluate_mask (parameters : Parameters F) (secret mask : DensePoly F) {a : F}
    (hmem : a ∈ parameters.summation.points) :
    (parameters.vanishing.mask secret mask).evaluate a = secret.evaluate a := by
  obtain ⟨index, hindex, rfl⟩ := Finset.mem_image.mp hmem
  exact (EvaluationDomain.coset parameters.summation).evaluate_mask_element secret mask
    (Finset.mem_range.mp hindex)

end Parameters

namespace Prover

/-- A leaf that is opened of the secret tree holds, for every committed polynomial, its values at
the points of the leaf, and nothing else. -/
theorem values_of_opened (wf : parameters.WellFormed) (given : Instance F) {leaf : ℕ}
    {opening : Merkle.Opening F}
    (opened : (initial parameters given).secretTree.open? leaf = .ok opening) :
    opening.values.size = (given.secretPolys.length + 1) * parameters.cosetSize ∧
      ∀ (place : ℕ) (s : DensePoly F) (offset : ℕ),
        (given.secretPolys ++ [given.blinding])[place]? = some s → offset < parameters.cosetSize →
        opening.values[place * parameters.cosetSize + offset]? =
          some (s.evaluate (parameters.point (leaf * parameters.cosetSize + offset))) := by
  obtain ⟨hleaf, rfl⟩ := Merkle.Tree.open?_eq_ok_iff.mp opened
  have hinside : leaf < 2 ^ parameters.treeDepth :=
    ((parameters.wellFormed_sharedTree (given.secretWords parameters)).size ▸ hleaf :)
  constructor
  · have hshared := parameters.values_opening_sharedTree (given.secretWords parameters) hinside
    have hcount : (given.secretWords parameters).length = given.secretPolys.length + 1 := by
      rw [Instance.secretWords, List.length_map, List.length_append, List.length_singleton]
    rw [← hcount, ← size_sharedLeaf, ← hshared]
    rfl
  · intro place s offset hs hoffset
    have hword : (given.secretWords parameters)[place]? =
        some (parameters.codewordDomain.wordOf s.toPolynomial) := by
      rw [Instance.secretWords, List.getElem?_map, hs, Option.map_some]
    rw [DensePoly.evaluate_eq_eval]
    exact wf.getElem?_opening hword hinside hoffset

/-- The leaf of every position can be opened. -/
theorem exists_opened (wf : parameters.WellFormed) (given : Instance F) {position : ℕ}
    (inside : position < parameters.codewordLength) :
    ∃ opening, (initial parameters given).secretTree.open?
      (parameters.fri.leafOf 0 position) = .ok opening := by
  have hsize := (parameters.wellFormed_sharedTree (given.secretWords parameters)).size
  exact ⟨_, Merkle.Tree.open?_eq_ok (hsize.symm ▸ wf.leafOf_lt inside)⟩

/-- At a position on the summation domain the leaf shows the values of the secrets themselves. -/
theorem value_of_masked (wf : parameters.WellFormed) (given : Instance F) {position : ℕ}
    (hmem : parameters.point position ∈ parameters.summation.points)
    {opening : Merkle.Opening F}
    (opened : (initial parameters given).secretTree.open?
      (parameters.fri.leafOf 0 position) = .ok opening) {place : ℕ} {secret mask : DensePoly F}
    (hsecret : given.secretPolys[place]? = some (parameters.vanishing.mask secret mask)) :
    opening.values[place * parameters.cosetSize + position % parameters.cosetSize]? =
      some (secret.evaluate (parameters.point position)) := by
  have hplace := (List.getElem?_eq_some_iff.mp hsecret).1
  have hposition : parameters.fri.leafOf 0 position * parameters.cosetSize +
      position % parameters.cosetSize = position := by
    rw [wf.leafOf_zero, Nat.div_add_mod']
  rw [(values_of_opened wf given opened).2 place _ _
    (by rw [List.getElem?_append_left hplace, hsecret]) (Nat.mod_lt _ wf.cosetSize_pos), hposition,
    parameters.evaluate_mask secret mask hmem]

end Prover

/-- If the shifts of accepted domains have different powers, no point of the codeword domain is
one of the summation domain, and an opened leaf of the secret tree holds the values of the
committed polynomials at points outside the summation domain. If the powers are equal, every
point of the summation domain stands at a position, and the leaf of this position shows what the
secrets are there, however they were masked. -/
theorem openings_of_accepted {summationDomain codewordDomain : EvaluationDomain F}
    {degreeBound : ℕ} {localization : List ℕ} {repetitions : ℕ}
    (accepted : Parameters.new? summationDomain codewordDomain degreeBound localization
      repetitions = .ok parameters)
    {publicPolys secretPolys : List (DensePoly F)} {blinding : DensePoly F} {prover : Prover F}
    (started : Prover.new? parameters publicPolys secretPolys blinding = .ok prover) :
    (parameters.summation.shift ^ parameters.codewordLength ≠
        parameters.codewordDomain.shift ^ parameters.codewordLength →
      (∀ x ∈ parameters.codewordDomain.points, parameters.vanishing.evaluate x ≠ 0) ∧
      ∀ leaf opening, prover.secretTree.open? leaf = .ok opening →
        opening.values.size = (secretPolys.length + 1) * parameters.cosetSize ∧
        ∀ (place : ℕ) (s : DensePoly F) (offset : ℕ),
          (secretPolys ++ [blinding])[place]? = some s → offset < parameters.cosetSize →
          ∃ x, x ∉ parameters.summation.points ∧
            x = parameters.point (leaf * parameters.cosetSize + offset) ∧
            opening.values[place * parameters.cosetSize + offset]? = some (s.evaluate x)) ∧
    (parameters.summation.shift ^ parameters.codewordLength =
        parameters.codewordDomain.shift ^ parameters.codewordLength →
      ∀ a ∈ parameters.summation.points, parameters.vanishing.evaluate a = 0 ∧
        ∃ position < parameters.codewordLength, parameters.point position = a ∧
        ∃ opening, prover.secretTree.open? (parameters.fri.leafOf 0 position) = .ok opening ∧
          ∀ (place : ℕ) (secret mask : DensePoly F),
            secretPolys[place]? = some (parameters.vanishing.mask secret mask) →
            opening.values[place * parameters.cosetSize + position % parameters.cosetSize]? =
              some (secret.evaluate a)) := by
  obtain ⟨wf, -⟩ := Parameters.wellFormed_of_accepted accepted
  obtain ⟨-, rfl⟩ := Prover.eq_initial_of_new? wf started
  have hmeet {a : F} (hmem : a ∈ parameters.summation.points) :=
    Coset.mem_points_iff_of_mem wf.summation_dimension_le hmem
  constructor
  · intro hdifferent
    have houtside (x : F) (hx : x ∈ parameters.codewordDomain.points) :
        x ∉ parameters.summation.points := fun hmem => hdifferent ((hmeet hmem).mp hx)
    refine ⟨fun x hx => ?_, fun leaf opening hopened => ?_⟩
    · rw [Ne, parameters.evaluate_vanishing_eq_zero_iff]
      exact houtside x hx
    · obtain ⟨hsize, hvalues⟩ := Prover.values_of_opened wf _ hopened
      refine ⟨hsize, fun place s offset hs hoffset => ?_⟩
      exact ⟨_, houtside _ (parameters.codewordDomain.point_mem_points _), rfl,
        hvalues place s offset hs hoffset⟩
  · intro hequal a hmem
    obtain ⟨position, hinside, rfl⟩ :=
      parameters.codewordDomain.exists_point_eq ((hmeet hmem).mpr hequal)
    obtain ⟨opening, hopened⟩ :=
      Prover.exists_opened wf ⟨publicPolys, secretPolys, blinding⟩ hinside
    exact ⟨(parameters.evaluate_vanishing_eq_zero_iff _).mpr hmem, position, hinside, rfl, opening,
      hopened, fun place secret mask => Prover.value_of_masked wf _ hmem hopened⟩

section Examples

open Parameters

/-- Over two points and over thirty-two moved by `3`, the first leaf shows a masked secret and
the blinding polynomial at `3`, outside the two points. -/
theorem openings_of_two_points :
    ∃ prover, Prover.new? twoPoints Instance.steep.publicPolys Instance.steep.secretPolys
        Instance.steep.blinding = .ok prover ∧
      (∀ x ∈ twoPoints.codewordDomain.points, twoPoints.vanishing.evaluate x ≠ 0) ∧
      ∃ opening, prover.secretTree.open? 0 = .ok opening ∧ opening.values.size = 4 ∧
        .ofNat 3 ∉ twoPoints.summation.points ∧
        opening.values[0]? =
          some ((twoPoints.vanishing.mask steepSecret ⟨#[.ofNat 2, .ofNat 3], by decide⟩).evaluate
            (.ofNat 3)) ∧
        opening.values[2]? = some (Instance.steep.blinding.evaluate (.ofNat 3)) := by
  obtain ⟨hwf, -⟩ := wellFormed_of_accepted new?_twoPoints
  have hstarted := (Prover.new?_eq_ok_iff hwf).mpr ⟨Instance.wellFormed_steep, rfl⟩
  have hdifferent : twoPoints.summation.shift ^ twoPoints.codewordLength ≠
      twoPoints.codewordDomain.shift ^ twoPoints.codewordLength := by
    decide +kernel
  obtain ⟨opening, hopened⟩ := Prover.exists_opened hwf Instance.steep
    (by decide : 0 < twoPoints.codewordLength)
  obtain ⟨hnonzero, hopenings⟩ := (openings_of_accepted new?_twoPoints hstarted).1 hdifferent
  obtain ⟨hsize, hvalues⟩ := hopenings 0 opening hopened
  have hpoint : twoPoints.point 0 = .ofNat 3 := by decide +kernel
  obtain ⟨x, houtside, hx, hsecret⟩ := hvalues 0 _ 0 rfl (by decide)
  obtain ⟨y, -, hy, hblinding⟩ := hvalues 1 _ 0 rfl (by decide)
  obtain rfl : x = .ofNat 3 := hx.trans hpoint
  obtain rfl : y = .ofNat 3 := hy.trans hpoint
  exact ⟨_, hstarted, hnonzero, opening, hopened, hsize, houtside, hsecret, hblinding⟩

/-- Two points and thirty-two, neither of them moved. -/
def meetingPoints : Parameters BabyBear where
  summation := twoPoints.summation
  fri := {
    rounds := [⟨Fri.Parameters.thirtyTwoRoots, 1, Fri.Parameters.twoHalvings.finalDomain⟩]
    finalDomain := Fri.Parameters.sixteenRoots
    degreeBound := 4
    oracle := .virtual }
  repetitions := 2
  sizeInverse := twoPoints.sizeInverse

theorem new?_meetingPoints :
    new? (.coset Fri.Parameters.twoHalvings.finalDomain) (.coset ⟨5, 1, by decide, by decide⟩)
      4 [1] 2 = .ok meetingPoints := rfl

/-- The point `1` is in both domains, and the first leaf shows the value `17` that the secret
has there before it is masked. -/
theorem exists_opening_on_summation :
    new? (.coset Fri.Parameters.twoHalvings.finalDomain) (.coset ⟨5, 1, by decide, by decide⟩)
        4 [1] 2 = .ok meetingPoints ∧
      1 ∈ meetingPoints.codewordDomain.points ∧ meetingPoints.vanishing.evaluate 1 = 0 ∧
      ∃ prover, Prover.new? meetingPoints Instance.steep.publicPolys
          [meetingPoints.vanishing.mask steepSecret ⟨#[.ofNat 2, .ofNat 3], by decide⟩]
          Instance.steep.blinding = .ok prover ∧
        ∃ opening, prover.secretTree.open? 0 = .ok opening ∧
          opening.values[0]? = some (steepSecret.evaluate 1) ∧
          steepSecret.evaluate 1 = .ofNat 17 := by
  obtain ⟨hwf, -⟩ := wellFormed_of_accepted new?_meetingPoints
  have hstarted := (Prover.new?_eq_ok_iff hwf).mpr ⟨Instance.wellFormed_steep, rfl⟩
  have hpoint : meetingPoints.point 0 = 1 := by decide +kernel
  have hmem : 1 ∈ meetingPoints.codewordDomain.points :=
    hpoint ▸ meetingPoints.codewordDomain.point_mem_points 0
  have hzero : meetingPoints.vanishing.evaluate 1 = 0 := by decide +kernel
  obtain ⟨opening, hopened⟩ := Prover.exists_opened hwf Instance.steep
    (by decide : 0 < meetingPoints.codewordLength)
  have hsecret : Instance.steep.secretPolys[0]? =
      some (meetingPoints.vanishing.mask steepSecret ⟨#[.ofNat 2, .ofNat 3], by decide⟩) := rfl
  have hshown := Prover.value_of_masked hwf Instance.steep
    (hpoint ▸ (meetingPoints.evaluate_vanishing_eq_zero_iff 1).mp hzero) hopened hsecret
  rw [hpoint] at hshown
  exact ⟨rfl, hmem, hzero, _, hstarted, opening, hopened, hshown, by decide +kernel⟩

end Examples

end Sumcheck
end OracleProofs

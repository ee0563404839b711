/-
# What the opened values tell about the secrets

The values of masked secrets at points outside the summation domain tell nothing, but one
blinding polynomial serves all repetitions. The values of the quotients there give
`ρ * F + G` for every batching challenge `ρ`, where `F` and `G` are what the inner product
and the blinding polynomial leave after division by the vanishing polynomial. One
challenge leaves `F` open, since `G` takes over the difference. Two different challenges
determine `F`, which secrets with the same sum need not have in common.
-/

import Mathlib
import OracleProofs.Proofs.Sumcheck.Masking
import OracleProofs.Proofs.Sumcheck.Prover

namespace OracleProofs
namespace Sumcheck

open Polynomial

variable {F : Type} [FiniteField F]

namespace Prover

/-- Two provers hold the same secret, blinding and quotient values at a position. -/
structure SameAt (first second : Prover F) (position : ℕ) : Prop where
  secret : first.secretWords.map (·[position]?) = second.secretWords.map (·[position]?)
  blinding : first.blindingWord[position]? = second.blindingWord[position]?
  quotients : first.quotients?.map (fun round => round.words.map (·[position]?)) =
    second.quotients?.map fun round => round.words.map (·[position]?)

/-- Two provers announce the same blinding sum, answer the same batching challenges, and
then hold the same values at all positions. -/
structure ShowsSame (first second : Prover F) (batching : List F) (positions : Finset ℕ) :
    Prop where
  blindingSum : first.firstMessage.blindingSum = second.firstMessage.blindingSum
  answers : ∃ firstRoot secondRoot, (first.commitQuotients batching).1 = .ok firstRoot ∧
    (second.commitQuotients batching).1 = .ok secondRoot
  values : ∀ position ∈ positions,
    (first.commitQuotients batching).2.SameAt (second.commitQuotients batching).2 position

end Prover

variable [LawfulField F] {parameters : Parameters F}

namespace Instance

/-- What the provers hold at a point, in terms of the polynomials. -/
structure AgreeAt (given other : Instance F) (parameters : Parameters F) (batching : List F)
    (a : F) : Prop where
  secret : given.secretPolys.map (fun s => s.toPolynomial.eval a) =
    other.secretPolys.map fun s => s.toPolynomial.eval a
  blinding : given.blinding.toPolynomial.eval a = other.blinding.toPolynomial.eval a
  quotients : ∀ challenge ∈ batching, (given.quotient parameters challenge).eval a =
    (other.quotient parameters challenge).eval a

theorem remainder_eq (given : Instance F) (parameters : Parameters F) (batching : F) :
    given.remainder parameters batching =
      C batching * (parameters.remainderOf given.pairs).toPolynomial +
        given.blinding.toPolynomial %ₘ parameters.summation.vanishingPolynomial := by
  have hblinding := VanishingPolynomial.remainder_divide_powerMinus parameters.summation.size_pos
    parameters.summation.shiftPower given.blinding
  rw [remainder, Coset.vanishingPolynomial, ← hblinding]
  rfl

variable {given other : Instance F}

theorem eval_inner_eq {a : F} (samePublic : given.publicPolys = other.publicPolys)
    (hsecret : given.secretPolys.map (fun s => s.toPolynomial.eval a) =
      other.secretPolys.map fun s => s.toPolynomial.eval a) :
    given.inner.eval a = other.inner.eval a := by
  have hvalues (each : Instance F) : each.inner.eval a =
      (List.zipWith (· * ·) (each.publicPolys.map fun p => p.toPolynomial.eval a)
        (each.secretPolys.map fun s => s.toPolynomial.eval a)).sum := by
    rw [inner, eval_innerPolynomial, pairs, List.zipWith_map, List.zip, List.map_zipWith]
  rw [hvalues, hvalues, samePublic, hsecret]

/-- Outside the summation domain the quotients that belong to the same secret and blinding
values are equal exactly if the remainders are. -/
theorem eval_quotient_eq_iff {a : F} (outside : a ∉ parameters.summation.points)
    (hinner : given.inner.eval a = other.inner.eval a)
    (hblinding : given.blinding.toPolynomial.eval a = other.blinding.toPolynomial.eval a)
    (batching : F) :
    (given.quotient parameters batching).eval a = (other.quotient parameters batching).eval a ↔
      (given.remainder parameters batching).eval a =
        (other.remainder parameters batching).eval a := by
  have hne : parameters.summation.vanishingPolynomial.eval a ≠ 0 := by
    rwa [Ne, Coset.eval_vanishingPolynomial_eq_zero_iff]
  have hgiven := congrArg (eval a) (given.batched_eq parameters batching)
  have hother := congrArg (eval a) (other.batched_eq parameters batching)
  simp only [eval_add, eval_mul, eval_C] at hgiven hother
  rw [hinner, hblinding, hother] at hgiven
  constructor
  · intro hquotient
    rw [hquotient] at hgiven
    exact (add_left_cancel hgiven).symm
  · intro hremainder
    rw [hremainder] at hgiven
    exact mul_left_cancel₀ hne (add_right_cancel hgiven).symm

/-- Two different batching challenges give away what is left of the inner product. -/
theorem AgreeAt.evaluate_remainderOf_eq {batching : List F} {a : F}
    (hagree : given.AgreeAt other parameters batching a)
    (samePublic : given.publicPolys = other.publicPolys)
    (outside : a ∉ parameters.summation.points) {first second : F} (hfirst : first ∈ batching)
    (hsecond : second ∈ batching) (hne : first ≠ second) :
    (parameters.remainderOf given.pairs).evaluate a =
      (parameters.remainderOf other.pairs).evaluate a := by
  have hinner := eval_inner_eq samePublic hagree.secret
  have hremainder (challenge : F) (hmem : challenge ∈ batching) :=
    (eval_quotient_eq_iff outside hinner hagree.blinding challenge).mp
      (hagree.quotients challenge hmem)
  simp only [remainder_eq, eval_add, eval_mul, eval_C, ← DensePoly.evaluate_eq_eval]
    at hremainder
  -- The remainder of the blinding polynomial is the same in both equations and drops out.
  have hdifference : (first - second) * ((parameters.remainderOf given.pairs).evaluate a -
      (parameters.remainderOf other.pairs).evaluate a) = 0 := by
    linear_combination hremainder first hfirst - hremainder second hsecond
  exact sub_eq_zero.mp ((mul_eq_zero.mp hdifference).resolve_left (sub_ne_zero.mpr hne))

/-- If all batching challenges are equal wherever the remainders differ, then the other
secrets can be masked to agree at all positions. -/
theorem exists_agreeAt (wf : parameters.WellFormed)
    (hgiven : given.WellFormed parameters.degreeBound) {secrets others : List (DensePoly F)}
    {positions : Finset ℕ}
    (comparable : parameters.Comparable given.publicPolys secrets others positions)
    (hpairs : parameters.remainderOf given.pairs =
      parameters.remainderOf (given.publicPolys.zip secrets))
    {batching : List F} {common : F}
    (hcommon : ∀ challenge ∈ batching, ∀ position ∈ positions, challenge = common ∨
      (parameters.remainderOf (given.publicPolys.zip secrets)).evaluate
          (parameters.point position) =
        (parameters.remainderOf (given.publicPolys.zip others)).evaluate
          (parameters.point position)) :
    ∃ other : Instance F, other.publicPolys = given.publicPolys ∧
      (∃ masks, other.secretPolys = parameters.maskAll others masks) ∧
      other.WellFormed parameters.degreeBound ∧
      given.blindingSum parameters = other.blindingSum parameters ∧
      ∀ position ∈ positions,
        given.AgreeAt other parameters batching (parameters.point position) := by
  obtain ⟨masks, hlength, hproducts, hvalues⟩ := comparable.exists_masks
    hgiven.matched.symm comparable.others_length comparable.low comparable.room
  -- Batched with `common`, what the inner products leave differently cancels against this.
  obtain ⟨blinding, hdegree, hremainder, hsum, hblinding⟩ :=
    comparable.exists_blinding wf.summation_lt common hgiven.blinding_lt
  let other : Instance F := ⟨given.publicPolys, parameters.maskAll others masks, blinding⟩
  have hotherPairs : parameters.remainderOf other.pairs =
      parameters.remainderOf (given.publicPolys.zip others) :=
    parameters.remainderOf_maskAll _ hlength
  have hmatched : given.publicPolys.length = (parameters.maskAll others masks).length :=
    (hlength.trans comparable.others_length).symm
  refine ⟨other, rfl, ⟨masks, rfl⟩, ⟨hmatched, hproducts, hdegree⟩, hsum.symm, ?_⟩
  intro position hmem
  have hsecret := (hvalues position hmem).symm
  have hinner : given.inner.eval (parameters.point position) =
      other.inner.eval (parameters.point position) := eval_inner_eq rfl hsecret
  refine ⟨hsecret, (hblinding position hmem).symm, ?_⟩
  intro challenge hchallenge
  refine (eval_quotient_eq_iff (comparable.outside position hmem) hinner
    (hblinding position hmem).symm challenge).mpr ?_
  rw [remainder_eq, remainder_eq, hotherPairs, hpairs, hremainder]
  simp only [eval_add, eval_mul, eval_sub, eval_C, ← DensePoly.evaluate_eq_eval]
  rcases hcommon challenge hchallenge position hmem with hequal | hequal
  · rw [hequal]
    ring
  · rw [hequal]
    ring

end Instance

namespace Prover

theorem sameAt_committed_iff (given other : Instance F) {position : ℕ}
    (inside : position < parameters.codewordLength) (challenges : Challenges F) :
    (committed parameters given challenges).SameAt (committed parameters other challenges)
        position ↔
      given.AgreeAt other parameters (challenges.map RepetitionChallenges.batching)
        (parameters.point position) := by
  have hsecret := parameters.codewordDomain.map_getElem?_wordOf_eq_iff inside given.secretPolys
    other.secretPolys DensePoly.toPolynomial DensePoly.toPolynomial
  have hblinding : (parameters.codewordDomain.wordOf given.blinding.toPolynomial)[position]? =
      (parameters.codewordDomain.wordOf other.blinding.toPolynomial)[position]? ↔
        given.blinding.toPolynomial.eval (parameters.point position) =
          other.blinding.toPolynomial.eval (parameters.point position) := by
    rw [Coset.getElem?_wordOf parameters.codewordDomain _ inside,
      Coset.getElem?_wordOf parameters.codewordDomain _ inside, Option.some_inj]
    rfl
  have hquotients := parameters.codewordDomain.map_getElem?_wordOf_eq_iff inside challenges
    challenges (fun own => given.quotient parameters own.batching)
    (fun own => other.quotient parameters own.batching)
  rw [List.map_inj_left] at hquotients
  constructor
  · intro hsame
    refine ⟨hsecret.mp hsame.secret, hblinding.mp hsame.blinding, ?_⟩
    rw [List.forall_mem_map]
    exact hquotients.mp (Option.some_inj.mp hsame.quotients)
  · intro hagree
    refine ⟨hsecret.mpr hagree.secret, hblinding.mpr hagree.blinding, ?_⟩
    exact congrArg some (hquotients.mpr (List.forall_mem_map.mp hagree.quotients))

/-- Provers before any challenge show the same if they announce the same sum and the
polynomials agree at the points of all positions. -/
theorem showsSame_initial_iff (wf : parameters.WellFormed) (given other : Instance F)
    {batching : List F} (count : batching.length = parameters.repetitions) {positions : Finset ℕ}
    (inside : ∀ position ∈ positions, position < parameters.codewordLength) :
    (initial parameters given).ShowsSame (initial parameters other) batching positions ↔
      given.blindingSum parameters = other.blindingSum parameters ∧
        ∀ position ∈ positions,
          given.AgreeAt other parameters batching (parameters.point position) := by
  -- Only the batching challenges matter here, so the others may be anything.
  obtain ⟨challenges, rfl⟩ : ∃ challenges : Challenges F,
      challenges.map RepetitionChallenges.batching = batching :=
    ⟨batching.map fun challenge => ⟨challenge, ⟨0, 0, 0, 0⟩, []⟩,
      (List.map_map ..).trans (List.map_id batching)⟩
  rw [List.length_map] at count
  have hgiven := commitQuotients_initial wf given count
  have hother := commitQuotients_initial wf other count
  constructor
  · intro hshows
    refine ⟨hshows.blindingSum, ?_⟩
    intro position hmem
    have hsame := hshows.values position hmem
    rw [hgiven, hother] at hsame
    exact (sameAt_committed_iff given other (inside position hmem) challenges).mp hsame
  · rintro ⟨hsum, hagree⟩
    refine ⟨hsum, ⟨_, _, congrArg Prod.fst hgiven, congrArg Prod.fst hother⟩, ?_⟩
    intro position hmem
    rw [hgiven, hother]
    exact (sameAt_committed_iff given other (inside position hmem) challenges).mpr
      (hagree position hmem)

/-- Masks do not change what is left of the inner product of an accepted prover. -/
theorem remainderOf_of_new? (wf : parameters.WellFormed)
    {publicPolys secrets masks : List (DensePoly F)} {blinding : DensePoly F}
    {prover : Prover F}
    (started : new? parameters publicPolys (parameters.maskAll secrets masks) blinding =
      .ok prover) (hsecrets : secrets.length = publicPolys.length) :
    parameters.remainderOf (publicPolys.zip (parameters.maskAll secrets masks)) =
      parameters.remainderOf (publicPolys.zip secrets) := by
  have hmatched := (eq_initial_of_new? wf started).1.matched
  exact parameters.remainderOf_maskAll publicPolys (hmatched.symm.trans hsecrets.symm)

/-- If two provers for masked secrets show the same after two different batching
challenges, then the remainders of the inner products have the same values. -/
theorem ShowsSame.evaluate_remainderOf_eq (wf : parameters.WellFormed)
    {publicPolys secrets others masks otherMasks : List (DensePoly F)}
    {blinding otherBlinding : DensePoly F} {prover other : Prover F} {batching : List F}
    {positions : Finset ℕ} (hshows : prover.ShowsSame other batching positions)
    (comparable : parameters.Comparable publicPolys secrets others positions)
    (started : new? parameters publicPolys (parameters.maskAll secrets masks) blinding =
      .ok prover)
    (otherStarted : new? parameters publicPolys (parameters.maskAll others otherMasks)
      otherBlinding = .ok other)
    (count : batching.length = parameters.repetitions) {first second : F}
    (hfirst : first ∈ batching) (hsecond : second ∈ batching) (hne : first ≠ second)
    {position : ℕ} (hmem : position ∈ positions) :
    (parameters.remainderOf (publicPolys.zip secrets)).evaluate (parameters.point position) =
      (parameters.remainderOf (publicPolys.zip others)).evaluate
        (parameters.point position) := by
  have hpairs := remainderOf_of_new? wf started comparable.secrets_length
  have hotherPairs := remainderOf_of_new? wf otherStarted comparable.others_length
  obtain ⟨-, rfl⟩ := eq_initial_of_new? wf started
  obtain ⟨-, rfl⟩ := eq_initial_of_new? wf otherStarted
  obtain ⟨-, hagree⟩ := (showsSame_initial_iff wf _ _ count comparable.inside).mp hshows
  rw [← hpairs, ← hotherPairs]
  exact (hagree position hmem).evaluate_remainderOf_eq rfl
    (comparable.outside position hmem) hfirst hsecond hne

end Prover

/-- Other secrets with the same sum over the summation domain have masks and a blinding
polynomial under which the announced sum and all values at the positions are the same if
and only if the batching challenges of all repetitions are equal or the remainders of the
inner products have the same values there. -/
theorem exists_masks_showsSame_iff {summationDomain codewordDomain : EvaluationDomain F}
    {degreeBound : ℕ} {localization : List ℕ} {repetitions : ℕ} {parameters : Parameters F}
    (accepted : Parameters.new? summationDomain codewordDomain degreeBound localization
      repetitions = .ok parameters)
    {publicPolys secrets others masks : List (DensePoly F)} {blinding : DensePoly F}
    {prover : Prover F} {positions : Finset ℕ}
    (started : Prover.new? parameters publicPolys (parameters.maskAll secrets masks) blinding =
      .ok prover)
    (comparable : parameters.Comparable publicPolys secrets others positions)
    {batching : List F} (count : batching.length = parameters.repetitions) :
    (∃ otherMasks otherBlinding other, Prover.new? parameters publicPolys
        (parameters.maskAll others otherMasks) otherBlinding = .ok other ∧
      prover.ShowsSame other batching positions) ↔
      (∀ first ∈ batching, ∀ second ∈ batching, first = second) ∨
        ∀ position ∈ positions,
          (parameters.remainderOf (publicPolys.zip secrets)).evaluate
              (parameters.point position) =
            (parameters.remainderOf (publicPolys.zip others)).evaluate
              (parameters.point position) := by
  obtain ⟨wf, -⟩ := Parameters.wellFormed_of_accepted accepted
  constructor
  · rintro ⟨otherMasks, otherBlinding, other, otherStarted, hshows⟩
    by_cases hequal : ∀ first ∈ batching, ∀ second ∈ batching, first = second
    · exact .inl hequal
    · push Not at hequal
      obtain ⟨first, hfirst, second, hsecond, hne⟩ := hequal
      exact .inr fun position hmem => hshows.evaluate_remainderOf_eq wf comparable started
        otherStarted count hfirst hsecond hne hmem
  · intro hequal
    have hpairs := Prover.remainderOf_of_new? wf started comparable.secrets_length
    obtain ⟨hgiven, rfl⟩ := Prover.eq_initial_of_new? wf started
    obtain ⟨common, hcommon⟩ : ∃ common, ∀ challenge ∈ batching, ∀ position ∈ positions,
        challenge = common ∨
          (parameters.remainderOf (publicPolys.zip secrets)).evaluate
              (parameters.point position) =
            (parameters.remainderOf (publicPolys.zip others)).evaluate
              (parameters.point position) := by
      rcases hequal with hequal | hequal
      · obtain ⟨common, hmem⟩ := List.exists_mem_of_length_pos (count ▸ wf.repetitions_pos)
        exact ⟨common, fun challenge hchallenge _ _ =>
          .inl (hequal challenge hchallenge common hmem)⟩
      · exact ⟨0, fun _ _ position hmem => .inr (hequal position hmem)⟩
    obtain ⟨other, hpublic, ⟨otherMasks, hmasks⟩, hother, hsum, hagree⟩ :=
      Instance.exists_agreeAt wf hgiven comparable hpairs hcommon
    have hstartedOther := (Prover.new?_eq_ok_iff wf).mpr ⟨hother, rfl⟩
    rw [hpublic, hmasks] at hstartedOther
    exact ⟨otherMasks, other.blinding, Prover.initial parameters other, hstartedOther,
      (Prover.showsSame_initial_iff wf _ other count comparable.inside).mpr ⟨hsum, hagree⟩⟩

section TwoSecrets

open Parameters

/-- The secret `9 + 8x`, with the values `17` and `1` at the two points. -/
def steepSecret : DensePoly BabyBear := ⟨#[.ofNat 9, .ofNat 8], by decide⟩

/-- The secret `9`, with the same sum. -/
def flatSecret : DensePoly BabyBear := ⟨#[.ofNat 9], by decide⟩

/-- The steep secret under the mask `2 + 3x`, to be multiplied with one. -/
def Instance.steep : Instance BabyBear where
  publicPolys := [⟨#[1], by decide⟩]
  secretPolys := twoPoints.maskAll [steepSecret] [⟨#[.ofNat 2, .ofNat 3], by decide⟩]
  blinding := ⟨#[1, .ofNat 2, .ofNat 3, .ofNat 4], by decide⟩

theorem Instance.wellFormed_steep : steep.WellFormed 4 where
  matched := rfl
  product_lt := by
    rintro pair hmem
    obtain rfl := List.mem_singleton.mp hmem
    exact (DensePoly.degree_mul_lt _ _).trans_le (by decide +kernel)
  blinding_lt := DensePoly.length_le_iff.mp (by decide)

theorem Parameters.comparable_steep : twoPoints.Comparable Instance.steep.publicPolys
    [steepSecret] [flatSecret] {0, 1} where
  inside := by decide
  outside := by decide +kernel
  secrets_length := rfl
  others_length := rfl
  sum_eq := by
    simp only [← DensePoly.evaluate_eq_eval]
    rw [Coset.sum_points, Coset.sum_points]
    decide +kernel
  low := by
    rintro pair hmem
    obtain rfl := List.mem_singleton.mp hmem
    rw [← degree_mul]
    exact (DensePoly.degree_mul_lt _ _).trans_le (by decide)
  room := by
    rintro p hmem
    obtain rfl := List.mem_singleton.mp hmem
    have hconstant : DensePoly.toPolynomial ⟨#[(1 : BabyBear)], by decide⟩ = 1 := by
      simp [DensePoly.toPolynomial, polynomialOf]
    rw [hconstant, degree_one, zero_add]
    decide

/-- With the same challenge in both repetitions the flat secret can be masked. -/
theorem exists_masks_of_same_challenges :
    ∃ prover, Prover.new? twoPoints Instance.steep.publicPolys
        (twoPoints.maskAll [steepSecret] [⟨#[.ofNat 2, .ofNat 3], by decide⟩])
        Instance.steep.blinding = .ok prover ∧
      ∃ otherMasks otherBlinding other, Prover.new? twoPoints Instance.steep.publicPolys
          (twoPoints.maskAll [flatSecret] otherMasks) otherBlinding = .ok other ∧
        prover.ShowsSame other [1, 1] {0, 1} := by
  obtain ⟨hwf, -⟩ := wellFormed_of_accepted new?_twoPoints
  have hstarted := (Prover.new?_eq_ok_iff hwf).mpr ⟨Instance.wellFormed_steep, rfl⟩
  exact ⟨_, hstarted, (exists_masks_showsSame_iff new?_twoPoints hstarted comparable_steep rfl).mpr
    (.inl (by decide))⟩

/-- With different challenges it cannot, whatever the mask and the blinding polynomial. -/
theorem not_exists_masks_of_different_challenges :
    twoPoints.Comparable Instance.steep.publicPolys [steepSecret] [flatSecret] {0, 1} ∧
      ∃ prover, Prover.new? twoPoints Instance.steep.publicPolys
          (twoPoints.maskAll [steepSecret] [⟨#[.ofNat 2, .ofNat 3], by decide⟩])
          Instance.steep.blinding = .ok prover ∧
        ¬ ∃ otherMasks otherBlinding other, Prover.new? twoPoints Instance.steep.publicPolys
            (twoPoints.maskAll [flatSecret] otherMasks) otherBlinding = .ok other ∧
          prover.ShowsSame other [1, 2] {0, 1} := by
  obtain ⟨hwf, -⟩ := wellFormed_of_accepted new?_twoPoints
  have hstarted := (Prover.new?_eq_ok_iff hwf).mpr ⟨Instance.wellFormed_steep, rfl⟩
  refine ⟨comparable_steep, _, hstarted, ?_⟩
  rintro ⟨otherMasks, otherBlinding, other, otherStarted, hshows⟩
  have hequal := hshows.evaluate_remainderOf_eq hwf comparable_steep hstarted otherStarted rfl
    List.mem_cons_self (List.mem_cons_of_mem _ List.mem_cons_self) (by decide)
    (Finset.mem_insert_self 0 {1})
  exact absurd hequal (by decide +kernel)

end TwoSecrets

end Sumcheck
end OracleProofs

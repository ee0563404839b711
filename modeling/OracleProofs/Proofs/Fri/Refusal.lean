/-
# Refused proofs

A proof is refused for the number of its challenges or because a round has been folded
before, and both happen before anything is folded: the prover is left as it was. The
positions are looked at after all rounds are folded. A prover that refuses one of them
has therefore folded by the challenges and does not take them back, so it still answers
queries for these challenges and refuses every further proof.
-/

import Mathlib
import OracleProofs.Proofs.Fri.Session

namespace OracleProofs
namespace Fri

open Polynomial

variable {F : Type} [FiniteField F]

namespace Prover

/-- The reasons to refuse a proof to a prover that has folded by `done`, each with the error and
with what is left of the prover. -/
inductive ProveRefusal (parameters : Parameters F) (reached : Prover F) (done challenges : List F)
    (positions : List ℕ) : FriError → Prover F → Prop
  | challengeCount (wrong : challenges.length ≠ parameters.roundCount) :
      ProveRefusal parameters reached done challenges positions
        (.foldingChallenges parameters.roundCount challenges.length) reached
  | started (count : challenges.length = parameters.roundCount) (begun : done ≠ []) :
      ProveRefusal parameters reached done challenges positions
        (.roundOrder 0 done.length) reached
  | outside {position : ℕ} {folded : Prover F} (count : challenges.length = parameters.roundCount)
      (fresh : done = []) (folds : reached.foldAll 0 challenges = (.ok (), folded))
      (first : positions.find? (parameters.codewordLength ≤ ·) = some position) :
      ProveRefusal parameters reached done challenges positions
        (.queryPosition position parameters.codewordLength) folded

variable [LawfulField F] {parameters : Parameters F} {p : F[X]} {done challenges : List F}
  {positions : List ℕ} {error : FriError} {left : Prover F}

/-- A fresh prover folds all rounds before it refuses a position. -/
theorem prove_after_nil_of_outside (wf : parameters.WellFormed) (p : F[X])
    (count : challenges.length = parameters.roundCount)
    (outside : ¬∀ position ∈ positions, position < parameters.codewordLength) :
    ∃ position, positions.find? (parameters.codewordLength ≤ ·) = some position ∧
      (after parameters p []).prove challenges positions =
        (.error (.queryPosition position parameters.codewordLength),
          after parameters p challenges) := by
  obtain ⟨position, hfirst, hquery⟩ := query_after_of_outside (p := p) count outside
  exact ⟨position, hfirst, by rw [prove_after_nil wf p count, hquery]⟩

/-- Folding all rounds changes the prover. -/
theorem after_ne_after_nil (wf : parameters.WellFormed) (p : F[X])
    (count : challenges.length = parameters.roundCount) :
    after parameters p challenges ≠ after parameters p [] := by
  intro hsame
  have hfinal := congrArg Prover.finalPolynomial? hsame
  have hnone : (after parameters p []).finalPolynomial? = none := if_neg wf.roundCount_pos.ne
  rw [hnone, after, if_pos count] at hfinal
  cases hfinal

/-- These reasons are all there are, and each of them suffices. -/
theorem prove_after_eq_error_iff (wf : parameters.WellFormed)
    (room : done.length ≤ parameters.roundCount) :
    (after parameters p done).prove challenges positions = (.error error, left) ↔
      ProveRefusal parameters (after parameters p done) done challenges positions error left := by
  constructor
  · intro hrefused
    by_cases hcount : challenges.length = parameters.roundCount
    · by_cases hstarted : done = []
      · -- only here are rounds folded, and all of them are
        subst hstarted
        by_cases hinside : ∀ position ∈ positions, position < parameters.codewordLength
        · rw [prove_after_nil wf p hcount, query_after wf hcount hinside] at hrefused
          cases hrefused
        · obtain ⟨position, hfirst, hprove⟩ := prove_after_nil_of_outside wf p hcount hinside
          cases hprove.symm.trans hrefused
          exact .outside hcount rfl (foldAll_after_nil wf p hcount) hfirst
      · cases (prove_after_of_started wf room hstarted hcount positions).symm.trans hrefused
        exact .started hcount hstarted
    · cases (prove_after_of_length_ne hcount positions).symm.trans hrefused
      exact .challengeCount hcount
  · intro hreason
    cases hreason with
    | challengeCount wrong => exact prove_after_of_length_ne wrong positions
    | started count begun => exact prove_after_of_started wf room begun count positions
    | @outside position _ count fresh folds first =>
        subst fresh
        cases (foldAll_after_nil wf p count).symm.trans folds
        have houtside : ¬∀ position ∈ positions, position < parameters.codewordLength := by
          intro hinside
          have hbelow := hinside position (List.mem_of_find?_eq_some first)
          have habove : parameters.codewordLength ≤ position := by
            simpa using List.find?_some first
          omega
        -- both name the first position outside, which is one and the same
        obtain ⟨other, hfirst, hprove⟩ := prove_after_nil_of_outside wf p count houtside
        cases hfirst.symm.trans first
        exact hprove

/-- Only a refused position changes the prover. -/
theorem ProveRefusal.left_eq_iff (wf : parameters.WellFormed)
    (reason : ProveRefusal parameters (after parameters p done) done challenges positions error
      left) :
    left = after parameters p done ↔ ∀ position size, error ≠ .queryPosition position size := by
  cases reason with
  | challengeCount wrong => exact iff_of_true rfl fun _ _ => nofun
  | started count begun => exact iff_of_true rfl fun _ _ => nofun
  | outside count fresh folds first =>
      subst fresh
      cases (foldAll_after_nil wf p count).symm.trans folds
      exact iff_of_false (after_ne_after_nil wf p count) fun hother => hother _ _ rfl

/-- A prover that was changed has folded by the challenges of the refused proof. -/
theorem ProveRefusal.of_left_ne (wf : parameters.WellFormed)
    (reason : ProveRefusal parameters (after parameters p done) done challenges positions error
      left) (changed : left ≠ after parameters p done) :
    (∀ inside, left.query inside = ((after parameters p done).prove challenges inside).1) ∧
      ∀ others more, others.length = parameters.roundCount →
        left.prove others more = (.error (.roundOrder 0 parameters.roundCount), left) := by
  cases reason with
  | challengeCount wrong => exact absurd rfl changed
  | started count begun => exact absurd rfl changed
  | outside count fresh folds first =>
      subst fresh
      cases (foldAll_after_nil wf p count).symm.trans folds
      refine ⟨fun inside => by rw [prove_after_nil wf p count], fun others more hothers => ?_⟩
      have hstarted : challenges ≠ [] :=
        List.ne_nil_of_length_pos (count ▸ wf.roundCount_pos)
      rw [prove_after_of_started wf count.le hstarted hothers, count]

/-- A refused proof leaves the prover as it was, unless a position is refused. This takes a prover
that has folded nothing. It is left with all rounds folded: queries are answered as the proof would
have been for other positions, and no proof is given any more. -/
theorem prove_refused_exact {domain : EvaluationDomain F} {degreeBound : ℕ}
    {localization : List ℕ} (accepted : Parameters.new? domain degreeBound localization =
      .ok parameters)
    (oracle : InitialOracle) {word : Array F} (size : word.size = parameters.codewordLength) :
    ∃ start, ofBitReversed? (parameters.withOracle oracle) word = .ok start ∧
      ofEvaluations? (parameters.withOracle oracle)
        (reverseOrder parameters.initialDomain.dimension word) = .ok start ∧
      ∀ calls done reached, start.session calls = (done, reached) →
        ∀ challenges positions error left,
          (reached.prove challenges positions = (.error error, left) ↔
            ProveRefusal (parameters.withOracle oracle) reached done challenges positions error
              left) ∧
          (reached.prove challenges positions = (.error error, left) →
            (left = reached ↔ ∀ position size, error ≠ .queryPosition position size) ∧
            (left ≠ reached →
              (∀ inside, left.query inside = (reached.prove challenges inside).1) ∧
              ∀ others more, others.length = parameters.roundCount →
                left.prove others more =
                  (.error (.roundOrder 0 parameters.roundCount), left))) := by
  have wf := (Parameters.wellFormed_of_accepted accepted).1.withOracle oracle
  obtain ⟨p, -, rfl⟩ := parameters.initialDomain.exists_wordOf size
  refine ⟨_, ofBitReversed?_wordOf wf p, ?_, fun calls done reached hsession => ?_⟩
  · rw [Coset.reverseOrder_wordOf]
    exact ofEvaluations?_valuesOf wf p
  · have hreached : reached = after (parameters.withOracle oracle) p done ∧
        done.length ≤ (parameters.withOracle oracle).roundCount := by
      have hempty : ([] : List F).length ≤ (parameters.withOracle oracle).roundCount :=
        Nat.zero_le _
      have hafter := session_after wf p hempty calls
      rwa [hsession, List.nil_append] at hafter
    obtain ⟨rfl, hroom⟩ := hreached
    intro challenges positions error left
    refine ⟨prove_after_eq_error_iff wf hroom, fun hrefused => ?_⟩
    have hreason := (prove_after_eq_error_iff wf hroom).mp hrefused
    exact ⟨hreason.left_eq_iff wf, hreason.of_left_ne wf⟩

/-- Eight values in bit-reversed order. -/
def eightValues : Array BabyBear := #[.ofNat 5, 0, 1, 1, 0, 1, 1, 0]

/-- A word on eight points has no position `8`. The prover that refuses it has folded twice and does
not send the proof any more that it would have sent before. -/
theorem prove_not_all_or_nothing :
    ∃ start left, ofBitReversed? Parameters.twoHalvings eightValues = .ok start ∧
      start.prove [3, 1] [8] = (.error (.queryPosition 8 8), left) ∧ left ≠ start ∧
      (∃ proof, (start.prove [3, 1] [6, 1]).1 = .ok proof) ∧
      (left.prove [3, 1] [6, 1]).1 = .error (.roundOrder 0 2) := by
  have wf := (Parameters.wellFormed_of_accepted Parameters.new?_twoHalvings).1
  obtain ⟨p, -, hword⟩ := Parameters.twoHalvings.initialDomain.exists_wordOf
    (rfl : eightValues.size = _)
  have hcount : ([3, 1] : List BabyBear).length = Parameters.twoHalvings.roundCount := rfl
  have hinside : ∀ position ∈ [6, 1], position < Parameters.twoHalvings.codewordLength := by
    decide
  have houtside : ¬∀ position ∈ [8], position < Parameters.twoHalvings.codewordLength := by decide
  obtain ⟨position, hfirst, hrefused⟩ := prove_after_nil_of_outside wf p hcount houtside
  obtain rfl : 8 = position := Option.some.inj hfirst
  refine ⟨_, _, hword ▸ ofBitReversed?_wordOf wf p, hrefused, after_ne_after_nil wf p hcount,
    ⟨honestProof Parameters.twoHalvings p [3, 1] [6, 1], ?_⟩, ?_⟩
  · rw [prove_after_nil wf p hcount, query_after wf hcount hinside]
  · rw [prove_after_of_started wf hcount.le (List.cons_ne_nil _ _) hcount]
    rfl

theorem prove_refused_exact_at_eight_values :
    ∃ start left, ofBitReversed? (Parameters.twoHalvings.withOracle .virtual) eightValues =
        .ok start ∧
      start.prove [3, 1] [7, 9, 8] = (.error (.queryPosition 9 8), left) ∧ left ≠ start ∧
      (∀ inside, left.query inside = (start.prove [3, 1] inside).1) ∧
      left.prove [3, 1] [6, 1] = (.error (.roundOrder 0 2), left) ∧
      start.prove [3] [6, 1] = (.error (.foldingChallenges 2 1), start) := by
  obtain ⟨start, hstart, -, hrefusals⟩ := prove_refused_exact Parameters.new?_twoHalvings .virtual
    (rfl : eightValues.size = _)
  have hfolds : (ofBitReversed? (Parameters.twoHalvings.withOracle .virtual) eightValues).map
      (fun start => (start.foldAll 0 [3, 1]).1) = .ok (.ok ()) := by
    decide +kernel
  obtain ⟨other, hother, hfolded⟩ := map_eq_ok_iff.mp hfolds
  cases hstart.symm.trans hother
  obtain ⟨hreasons, hchanges⟩ := hrefusals [] [] start rfl [3, 1] [7, 9, 8]
    (.queryPosition 9 8) (start.foldAll 0 [3, 1]).2
  have hrefused := hreasons.mpr (.outside rfl rfl (Prod.ext hfolded rfl) rfl)
  have hchanged : (start.foldAll 0 [3, 1]).2 ≠ start := fun hsame =>
    ((hchanges hrefused).1.mp hsame) 9 8 rfl
  obtain ⟨hqueries, hproofs⟩ := (hchanges hrefused).2 hchanged
  exact ⟨start, _, hstart, hrefused, hchanged, hqueries, hproofs [3, 1] [6, 1] rfl,
    (hrefusals [] [] start rfl [3] [6, 1] _ start).1.mpr (.challengeCount (by decide))⟩

end Prover
end Fri
end OracleProofs

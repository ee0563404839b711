/-
# Drawn challenges

What the verifier draws does not depend on what the prover answers. A run
therefore succeeds with the challenges that the source holds whenever the prover
succeeds with any challenges, one per repetition and round, and any queries inside
the words. Where the source has none of the words that a search asks for, nothing is
drawn and the run has no answer.
-/

import Mathlib
import OracleProofs.Proofs.Random.Source
import OracleProofs.Proofs.Sumcheck.Prover
import OracleProofs.Sumcheck.Interaction

namespace OracleProofs
namespace Sumcheck

variable {F : Type} [FiniteField F]

/-- The challenges have the numbers that the parameters ask for, and the queries lie
inside the words. -/
structure Admissible (parameters : Parameters F) (batching : List F)
    (combination : List (Combination F)) (folding : List (List F)) (queries : List ℕ) : Prop where
  batching : batching.length = parameters.repetitions
  combination : combination.length = parameters.repetitions
  rounds : folding.length = parameters.fri.roundCount
  folding : ∀ round ∈ folding, round.length = parameters.repetitions
  queries : ∀ position ∈ queries, position < parameters.codewordLength

/-- Every repetition has one challenge for each round. -/
theorem Admissible.complete {parameters : Parameters F} {batching : List F}
    {combination : List (Combination F)} {folding : List (List F)} {queries : List ℕ}
    (admissible : Admissible parameters batching combination folding queries) :
    ∀ own ∈ Challenges.ofRounds batching combination folding,
      own.folding.length = parameters.fri.roundCount := by
  intro own hmem
  rw [Challenges.length_folding_ofRounds admissible.batching admissible.combination
    admissible.folding hmem, admissible.rounds]

/-- The prover answers all challenges in order and then the queries. -/
def Prover.Answers (prover : Prover F) (batching : List F) (combination : List (Combination F))
    (folding : List (List F)) (queries : List ℕ) (proof : Proof F) : Prop :=
  ∃ root committed combined folded,
    prover.commitQuotients batching = (.ok root, committed) ∧
    committed.combine combination = (.ok (), combined) ∧
    combined.foldAll 0 folding = (.ok (), folded) ∧ folded.query queries = .ok proof

/-- What a verifier draws in a run. -/
structure Drawn (F : Type) where
  batching : List F
  combination : List (Combination F)
  folding : List (List F)
  queries : List ℕ

variable [Drawable F] {S : Type} [RandomSource S]

namespace Verifier

/-- Draws the folding challenges of `count` rounds, one round after the other. -/
def drawFolding? (verifier : Verifier F) : (count : ℕ) → S → Except Fault (List (List F) × S)
  | 0, source => .ok ([], source)
  | count + 1, source => do
      let (challenges, source) ← verifier.sampleFolding? source
      let (later, source) ← drawFolding? verifier count source
      return (challenges :: later, source)

/-- Draws everything that a run needs, in the order of the run. -/
def drawRun? (verifier : Verifier F) (queryCount : ℕ) (source : S) : Except Fault (Drawn F) := do
  let (batching, source) ← verifier.sampleBatching? source
  let (combination, source) ← verifier.sampleCombination? source
  let (folding, source) ← verifier.drawFolding? verifier.parameters.fri.roundCount source
  let (queries, _) ← verifier.sampleQueries? queryCount source
  return { batching, combination, folding, queries }

variable {verifier : Verifier F}

theorem drawFolding?_succ_eq_ok_iff {count : ℕ} {source rest : S} {folding : List (List F)} :
    verifier.drawFolding? (count + 1) source = .ok (folding, rest) ↔
      ∃ challenges middle later, verifier.sampleFolding? source = .ok (challenges, middle) ∧
        verifier.drawFolding? count middle = .ok (later, rest) ∧
        folding = challenges :: later := by
  rw [drawFolding?, bind_eq_ok_iff]
  constructor
  · rintro ⟨⟨challenges, middle⟩, hfirst, hrest⟩
    obtain ⟨⟨later, _⟩, hlater, hequal⟩ := bind_eq_ok_iff.mp hrest
    cases hequal
    exact ⟨challenges, middle, later, hfirst, hlater, rfl⟩
  · rintro ⟨challenges, middle, later, hfirst, hlater, rfl⟩
    exact ⟨(challenges, middle), hfirst, bind_eq_ok_iff.mpr ⟨(later, rest), hlater, rfl⟩⟩

theorem drawFolding?_complete {count : ℕ} {source rest : S} {folding : List (List F)}
    (drawn : verifier.drawFolding? count source = .ok (folding, rest)) :
    folding.length = count ∧
      ∀ round ∈ folding, round.length = verifier.parameters.repetitions := by
  induction count generalizing source folding with
  | zero =>
      cases drawn
      simp
  | succ count ih =>
      obtain ⟨challenges, middle, later, hfirst, hlater, rfl⟩ :=
        drawFolding?_succ_eq_ok_iff.mp drawn
      obtain ⟨hlength, hcomplete⟩ := ih hlater
      rw [List.length_cons, hlength, List.forall_mem_cons]
      exact ⟨rfl, length_drawMany (drawMany_of_drawMany? hfirst), hcomplete⟩

omit [Drawable F] in
theorem sampleQueries?_inside {count : ℕ} {source rest : S} {queries : List ℕ}
    (drawn : verifier.sampleQueries? count source = .ok (queries, rest)) :
    ∀ position ∈ queries, position < verifier.parameters.codewordLength := by
  obtain ⟨⟨positions, _⟩, hpositions, hequal⟩ := map_eq_ok_iff.mp drawn
  cases hequal
  intro position hmem
  rw [mem_sortedDistinct] at hmem
  exact forall_mem_drawMany (drawPosition_lt (Coset.size_pos _))
    (drawMany_of_drawMany? hpositions) position hmem

/-- What is drawn is admissible. -/
theorem admissible_of_drawRun? {queryCount : ℕ} {source : S} {drawn : Drawn F}
    (hdrawn : verifier.drawRun? queryCount source = .ok drawn) :
    Admissible verifier.parameters drawn.batching drawn.combination drawn.folding
      drawn.queries := by
  obtain ⟨⟨batching, first⟩, hbatching, hdrawn⟩ := bind_eq_ok_iff.mp hdrawn
  obtain ⟨⟨combination, second⟩, hcombination, hdrawn⟩ := bind_eq_ok_iff.mp hdrawn
  obtain ⟨⟨folding, third⟩, hfolding, hdrawn⟩ := bind_eq_ok_iff.mp hdrawn
  obtain ⟨⟨queries, _⟩, hqueries, hequal⟩ := bind_eq_ok_iff.mp hdrawn
  cases hequal
  obtain ⟨hrounds, hcomplete⟩ := drawFolding?_complete hfolding
  exact
    { batching := length_drawMany (drawMany_of_drawMany? hbatching)
      combination := length_drawMany (drawMany_of_drawMany? hcombination)
      rounds := hrounds
      folding := hcomplete
      queries := sampleQueries?_inside hqueries }

end Verifier

namespace Interaction

variable {verifier : Verifier F}

/-- Rounds are folded with the challenges that are drawn for them. -/
theorem runFolding_eq_ok {count : ℕ} {source rest : S} {folding : List (List F)}
    (drawn : verifier.drawFolding? count source = .ok (folding, rest)) {prover folded : Prover F}
    {round : ℕ} (folds : prover.foldAll round folding = (.ok (), folded)) :
    runFolding verifier count round prover source = (.ok (folding, rest), folded) := by
  induction count generalizing source folding prover round with
  | zero =>
      cases drawn
      cases folds
      rfl
  | succ count ih =>
      obtain ⟨challenges, middle, later, hfirst, hlater, rfl⟩ :=
        Verifier.drawFolding?_succ_eq_ok_iff.mp drawn
      cases hstep : prover.foldRound round challenges with
      | mk answer next =>
          rw [Prover.foldAll, hstep] at folds
          cases answer with
          | error error => cases folds
          | ok messages =>
              rw [runFolding, hfirst]
              simp only [Interaction.drawn, mapError_ok, andThen, hstep, ih hlater folds]

/-- A run ends with the proof that answers what is drawn. -/
theorem run_eq_ok {queryCount : ℕ} {source : S} {drawn : Drawn F}
    (hdrawn : verifier.drawRun? queryCount source = .ok drawn) {prover : Prover F}
    {proof : Proof F} (answers : prover.Answers drawn.batching drawn.combination drawn.folding
      drawn.queries proof) :
    (run prover verifier queryCount source).1 =
      .ok ⟨.ofRounds drawn.batching drawn.combination drawn.folding, drawn.queries, proof⟩ := by
  obtain ⟨⟨batching, first⟩, hbatching, hdrawn⟩ := bind_eq_ok_iff.mp hdrawn
  obtain ⟨⟨combination, second⟩, hcombination, hdrawn⟩ := bind_eq_ok_iff.mp hdrawn
  obtain ⟨⟨folding, third⟩, hfolding, hdrawn⟩ := bind_eq_ok_iff.mp hdrawn
  obtain ⟨⟨queries, _⟩, hqueries, hequal⟩ := bind_eq_ok_iff.mp hdrawn
  cases hequal
  obtain ⟨root, committed, combined, folded, hcommit, hcombine, hfold, hquery⟩ := answers
  rw [run, hbatching]
  simp only [Interaction.drawn, mapError_ok, andThen, hcommit, hcombination, hcombine,
    runFolding_eq_ok hfolding hfold, runQueries, hqueries, hquery]
  rfl

end Interaction

namespace Verifier

variable {verifier : Verifier F}

theorem endlessOrDrawn_drawFolding?
    (room : checkRoom verifier.parameters.repetitions (FiniteField.width F) = .ok ())
    (count : ℕ) (source : S) : EndlessOrDrawn (verifier.drawFolding? count source) := by
  induction count generalizing source with
  | zero => exact .ok _
  | succ count ih =>
      exact (EndlessOrDrawn.drawMany? room _ _).bind fun _ => (ih _).bind fun _ => .ok _

/-- What can be held in memory is drawn, unless one of the searches never ends. -/
theorem endlessOrDrawn_drawRun? {queryCount : ℕ}
    (room : checkRoom verifier.parameters.repetitions (4 * FiniteField.width F) = .ok ())
    (queryRoom : checkRoom queryCount wordBytes = .ok ()) (source : S) :
    EndlessOrDrawn (verifier.drawRun? queryCount source) := by
  have hroom : checkRoom verifier.parameters.repetitions (FiniteField.width F) = .ok () := by
    rw [checkRoom_eq_ok_iff] at room ⊢
    refine lt_of_le_of_lt (Nat.mul_le_mul_left _ ?_) room
    exact Nat.le_mul_of_pos_left _ (by norm_num)
  refine (EndlessOrDrawn.drawMany? hroom _ _).bind fun _ =>
    (EndlessOrDrawn.drawMany? room _ _).bind fun _ =>
      (endlessOrDrawn_drawFolding? hroom _ _).bind fun _ => ?_
  exact ((EndlessOrDrawn.drawMany? queryRoom _ _).map _).bind fun _ => .ok _

end Verifier
end Sumcheck
end OracleProofs

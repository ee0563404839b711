/-
# What folding proves about the word that is folded

A round is repeated in thought with several challenges for one word. If as many
challenges as the round has points in a leaf all fold the word to a word of low
degree, then the word itself was of low degree, with the bound of its round. The
word is arbitrary; nothing is assumed about how it was made.
-/

import Mathlib
import OracleProofs.Proofs.Fri.Fold

namespace OracleProofs
namespace Fri

open Polynomial

variable {F : Type} [FiniteField F] [LawfulField F]

/-- The challenge folds the word to one of low degree on the next domain. -/
def Round.Survives (round : Round F) (next : Coset F) (bound : ℕ) (word : Array F)
    (challenge : F) : Prop :=
  ∃ folded, round.foldWord? word challenge = .ok folded ∧ next.IsLowDegree bound folded

/-- A word that folds to low degree under as many challenges as a leaf has points
is of low degree. -/
theorem Round.FoldsTo.isLowDegree_of_survives {round : Round F} {next : Coset F}
    (folds : round.FoldsTo next) {bound : ℕ} (fits : bound ≤ round.domain.size)
    {word : Array F} (size : word.size = round.domain.size) {challenges : Finset F}
    (card : challenges.card = round.cosetSize)
    (survives : ∀ challenge ∈ challenges,
      round.Survives next (bound / round.cosetSize) word challenge) :
    round.domain.IsLowDegree bound word := by
  obtain ⟨p, hp, rfl⟩ := round.domain.exists_wordOf size
  refine ⟨p, ?_, rfl⟩
  apply degree_lt_of_foldSlices round.cosetSize_pos card
  intro challenge hmem
  obtain ⟨folded, hfolded, q, hq, hword⟩ := survives challenge hmem
  rw [folds.foldWord?_wordOf] at hfolded
  cases hfolded
  have hnext : bound / round.cosetSize ≤ next.size := by
    rw [← folds.size_mul] at fits
    exact Nat.div_le_of_le_mul (fits.trans_eq (mul_comm _ _))
  have hequal := (next.wordOf_inj (hq.trans_le (by exact_mod_cast hnext))
    (folds.degree_foldSlices_lt challenge hp)).mp hword
  rwa [← hequal]

/-- A word of low degree survives every challenge. -/
theorem Round.FoldsTo.survives_of_degree_lt {round : Round F} {next : Coset F}
    (folds : round.FoldsTo next) (challenge : F) {p : F[X]} {bound : ℕ}
    (hdegree : p.degree < (bound * round.cosetSize : ℕ)) :
    round.Survives next bound (round.domain.wordOf p) challenge :=
  ⟨_, folds.foldWord?_wordOf p challenge, _,
    OracleProofs.degree_foldSlices_lt round.cosetSize_pos challenge hdegree, rfl⟩

/-- In every round of accepted parameters, a word that as many challenges as a
leaf has points fold to a word within the next degree bound is itself within the
bound of its round. So a word that is not survives fewer challenges. -/
theorem Parameters.isLowDegree_of_folds {domain : EvaluationDomain F} {degreeBound : ℕ}
    {localization : List ℕ} {parameters : Parameters F}
    (accepted : new? domain degreeBound localization = .ok parameters)
    {place : ℕ} {round : Round F} {next : Coset F}
    (hround : parameters.rounds[place]? = some round)
    (hnext : parameters.domains[place + 1]? = some next)
    {word : Array F} (size : word.size = round.domain.size) (challenges : Finset F)
    (survives : ∀ challenge ∈ challenges,
      round.Survives next (parameters.degreeBoundAt place / round.cosetSize) word challenge) :
    (challenges.card = round.cosetSize →
        round.domain.IsLowDegree (parameters.degreeBoundAt place) word) ∧
      (¬round.domain.IsLowDegree (parameters.degreeBoundAt place) word →
        challenges.card ≤ round.cosetSize - 1) := by
  obtain ⟨wf, -⟩ := wellFormed_of_accepted accepted
  have hfolds := wf.chain.foldsTo hround hnext
  have hfits := wf.degreeBoundAt_le hround
  constructor
  · intro hcard
    exact hfolds.isLowDegree_of_survives hfits size hcard survives
  · intro hfar
    by_contra hmany
    obtain ⟨chosen, hsubset, hcard⟩ := Finset.exists_subset_card_eq
      (by omega : round.cosetSize ≤ challenges.card)
    exact hfar (hfolds.isLowDegree_of_survives hfits size hcard
      fun challenge hmem => survives challenge (hsubset hmem))

/-- Two folds of a cubic on eight points. -/
theorem Parameters.isLowDegree_of_two_folds :
    ∃ round ∈ twoHalvings.rounds, ∃ next ∈ twoHalvings.domains,
      (∀ challenge ∈ ({0, 1} : Finset BabyBear),
        round.Survives next 2 (round.domain.wordOf (X ^ 3 + 1)) challenge) ∧
      round.domain.IsLowDegree 4 (round.domain.wordOf (X ^ 3 + 1)) := by
  have hround : twoHalvings.rounds[0]? = some twoHalvings.rounds[0] := rfl
  have hnext : twoHalvings.domains[1]? = some twoHalvings.domains[1] := rfl
  have hfolds := (wellFormed_of_accepted new?_twoHalvings).1.chain.foldsTo hround hnext
  have hdegree : (X ^ 3 + 1 : BabyBear[X]).degree < (4 : ℕ) := by
    refine (degree_add_le _ _).trans_lt ?_
    rw [degree_X_pow, degree_one]
    decide
  have hsurvives : ∀ challenge ∈ ({0, 1} : Finset BabyBear),
      twoHalvings.rounds[0].Survives twoHalvings.domains[1] 2
        (twoHalvings.rounds[0].domain.wordOf (X ^ 3 + 1)) challenge := by
    intro challenge _
    exact hfolds.survives_of_degree_lt challenge hdegree
  refine ⟨_, List.getElem_mem _, _, List.getElem_mem _, hsurvives, ?_⟩
  exact (isLowDegree_of_folds new?_twoHalvings hround hnext (Coset.size_wordOf _ _) _
    hsurvives).1 (by decide)

end Fri
end OracleProofs

/-
# Regrouped challenges

Challenges are drawn round by round for all repetitions and used by repetition.
Where every round has one challenge for each repetition, regrouping them loses
nothing: the rounds can be read off again.
-/

import Mathlib
import OracleProofs.Sumcheck.Proof

namespace OracleProofs
namespace Sumcheck
namespace Challenges

variable {F : Type}

/-- The challenges of all repetitions in one round of folding. -/
def ofRound [Zero F] (challenges : Challenges F) (round : ℕ) : List F :=
  challenges.map fun own => own.folding.getD round 0

variable {batching : List F} {combination : List (Combination F)} {folding : List (List F)}
  {repetitions : ℕ}

theorem length_ofRounds (hbatching : batching.length = repetitions)
    (hcombination : combination.length = repetitions) :
    (ofRounds batching combination folding).length = repetitions := by
  simp [ofRounds, hbatching, hcombination]

theorem map_batching_ofRounds (hbatching : batching.length = repetitions)
    (hcombination : combination.length = repetitions) :
    (ofRounds batching combination folding).map RepetitionChallenges.batching = batching := by
  apply List.ext_getElem
  · rw [List.length_map, length_ofRounds hbatching hcombination, hbatching]
  · intro place hleft hright
    simp [ofRounds]

theorem map_combination_ofRounds (hbatching : batching.length = repetitions)
    (hcombination : combination.length = repetitions) :
    (ofRounds batching combination folding).map RepetitionChallenges.combination =
      combination := by
  apply List.ext_getElem
  · rw [List.length_map, length_ofRounds hbatching hcombination, hcombination]
  · intro place hleft hright
    simp [ofRounds]

/-- The folding challenges of a repetition are those that stand at its place. -/
theorem getElem_ofRounds [Zero F] (complete : ∀ round ∈ folding, round.length = repetitions)
    {place : ℕ} (inside : place < repetitions)
    (hplace : place < (ofRounds batching combination folding).length) :
    (ofRounds batching combination folding)[place].folding =
      folding.map fun round => round.getD place 0 := by
  simp only [ofRounds, List.getElem_mapIdx]
  rw [← List.filterMap_eq_map]
  apply List.filterMap_congr
  intro round hmem
  have hinside : place < round.length := by rwa [complete round hmem]
  simp [hinside]

theorem length_folding_ofRounds [Zero F] (hbatching : batching.length = repetitions)
    (hcombination : combination.length = repetitions)
    (complete : ∀ round ∈ folding, round.length = repetitions) {own : RepetitionChallenges F}
    (hmem : own ∈ ofRounds batching combination folding) :
    own.folding.length = folding.length := by
  obtain ⟨place, hplace, rfl⟩ := List.mem_iff_getElem.mp hmem
  have hinside : place < repetitions := by
    rwa [length_ofRounds hbatching hcombination] at hplace
  rw [getElem_ofRounds complete hinside hplace, List.length_map]

/-- The rounds of regrouped challenges are the rounds they were drawn in. -/
theorem map_ofRound_ofRounds [Zero F] (hbatching : batching.length = repetitions)
    (hcombination : combination.length = repetitions)
    (complete : ∀ round ∈ folding, round.length = repetitions) :
    (List.range folding.length).map (ofRounds batching combination folding).ofRound = folding := by
  apply List.ext_getElem
  · simp
  · intro round hleft hright
    have hcomplete := complete _ (List.getElem_mem hright)
    rw [List.getElem_map, List.getElem_range, ofRound]
    apply List.ext_getElem
    · rw [List.length_map, length_ofRounds hbatching hcombination, hcomplete]
    · intro place hplace hentry
      rw [hcomplete] at hentry
      rw [List.getElem_map, getElem_ofRounds complete hentry]
      simp [hright, hcomplete, hentry]

end Challenges
end Sumcheck
end OracleProofs

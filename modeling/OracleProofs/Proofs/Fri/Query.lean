/-
# The proof that an honest prover sends

Queries are answered after the last round by opening every committed word at the
leaves that the positions reach. Position by position this follows the rounds: a
position of a word becomes its leaf there and is, as such, the position in the
next word. Repeated leaves are opened once, in increasing order.
-/

import Mathlib
import OracleProofs.Proofs.Fri.Prover

namespace OracleProofs
namespace Fri

open Polynomial

variable {F : Type} [FiniteField F] [LawfulField F]

/-- The openings of the word of a polynomial at the leaves of positions. -/
noncomputable def Round.layerProofOf (round : Round F) (place : ℕ) (p : F[X])
    (positions : List ℕ) : LayerProof F where
  round := place
  root := (round.treeOf p).root
  openings :=
    (sortedDistinct (positions.map (· / round.cosetSize))).map (round.treeOf p).opening

/-- The openings of all words on the way, of which the first belongs to the round
at `place`. -/
noncomputable def layerProofs : ℕ → List (Round F) → List F → F[X] → List ℕ → List (LayerProof F)
  | place, round :: rounds, challenge :: challenges, p, positions =>
      round.layerProofOf place p positions ::
        layerProofs (place + 1) rounds challenges (foldSlices round.cosetSize challenge p)
          (positions.map (· / round.cosetSize))
  | _, _, _, _, _ => []

/-- The number of words that no layer proof opens. -/
def InitialOracle.unopened : InitialOracle → ℕ
  | .committed => 0
  | .virtual => 1

/-- The proof for the word of a polynomial. -/
noncomputable def honestProof (parameters : Parameters F) (p : F[X]) (challenges : List F)
    (positions : List ℕ) : Proof F where
  layers := (layerProofs 0 parameters.rounds challenges p positions).drop
    parameters.oracle.unopened
  finalPolynomial :=
    Prover.finalCoefficients parameters (foldedBy parameters.rounds challenges p)

theorem length_layerProofs (place : ℕ) {rounds : List (Round F)} {challenges : List F}
    (count : challenges.length = rounds.length) (p : F[X]) (positions : List ℕ) :
    (layerProofs place rounds challenges p positions).length = rounds.length := by
  induction rounds generalizing place challenges p positions with
  | nil => cases challenges <;> rfl
  | cons round rounds ih =>
      cases challenges with
      | nil => cases count
      | cons challenge challenges =>
          rw [layerProofs, List.length_cons, ih _ (Nat.succ.inj count), List.length_cons]

omit [LawfulField F] in
/-- The leaf of a position is the leaf of what it became in earlier rounds. -/
theorem Parameters.leafOf_eq (parameters : Parameters F) {place : ℕ} {round : Round F}
    (hround : parameters.rounds[place]? = some round) (position : ℕ) :
    parameters.leafOf place position =
      position / 2 ^ (parameters.localization.take place).sum / round.cosetSize := by
  have hexponent : parameters.localization[place]? = some round.exponent := by
    rw [localization, List.getElem?_map, hround, Option.map_some]
  rw [leafOf, total_id, Nat.shiftRight_eq_div_pow, List.take_add_one, hexponent,
    Option.toList_some, List.sum_append, List.sum_singleton, pow_add, ← Nat.div_div_eq_div_mul,
    round.cosetSize_eq]

omit [LawfulField F] in
/-- The leaves that positions reach in a round, by way of what they became. -/
theorem Parameters.map_leafOf (parameters : Parameters F) {place : ℕ} {round : Round F}
    (hround : parameters.rounds[place]? = some round) (positions : List ℕ) :
    positions.map (parameters.leafOf place) =
      (positions.map (· / 2 ^ (parameters.localization.take place).sum)).map
        (· / round.cosetSize) := by
  rw [List.map_map]
  apply List.map_congr_left
  intro position _
  exact parameters.leafOf_eq hround position

omit [LawfulField F] in
/-- What positions become after a round are the leaves that they reach in it. -/
theorem Parameters.map_leafOf_eq_div (parameters : Parameters F) (place : ℕ)
    (positions : List ℕ) :
    positions.map (parameters.leafOf place) =
      positions.map (· / 2 ^ (parameters.localization.take (place + 1)).sum) := by
  apply List.map_congr_left
  intro position _
  rw [leafOf, total_id, Nat.shiftRight_eq_div_pow]

omit [LawfulField F] in
theorem Parameters.mem_leavesOf {parameters : Parameters F} {place leaf : ℕ}
    {positions : List ℕ} :
    leaf ∈ parameters.leavesOf place positions ↔
      ∃ position ∈ positions, parameters.leafOf place position = leaf := by
  rw [leavesOf, mem_sortedDistinct, List.mem_map]

/-- No position is found outside if all lie inside. -/
theorem find?_le_eq_none {size : ℕ} {positions : List ℕ}
    (inside : ∀ position ∈ positions, position < size) :
    positions.find? (fun position => decide (size ≤ position)) = none := by
  rw [List.find?_eq_none]
  intro position hmem
  simpa using inside position hmem

section Open

variable {round : Round F} {next : Coset F}

/-- Positions of a word become positions of the next. -/
theorem Round.FoldsTo.div_lt (folds : round.FoldsTo next) {position : ℕ}
    (inside : position < round.domain.size) : position / round.cosetSize < next.size := by
  apply Nat.div_lt_of_lt_mul
  rwa [mul_comm, folds.size_mul]

theorem Round.FoldsTo.leaf_lt (folds : round.FoldsTo next) {positions : List ℕ}
    (inside : ∀ position ∈ positions, position < round.domain.size) {leaf : ℕ}
    (hmem : leaf ∈ sortedDistinct (positions.map (· / round.cosetSize))) : leaf < next.size := by
  obtain ⟨position, hposition, rfl⟩ := List.mem_map.mp (mem_sortedDistinct.mp hmem)
  exact folds.div_lt (inside position hposition)

theorem Round.FoldsTo.size_leaves_treeOf (folds : round.FoldsTo next) (p : F[X]) :
    (round.treeOf p).leaves.size = next.size := by
  rw [next.size_eq, ← folds.treeDepth_eq]
  exact folds.size_blocks p

/-- A committed layer is opened at the leaves of its round. -/
private theorem openLayers?_cons (folds : round.FoldsTo next) (parameters : Parameters F)
    (positions : List ℕ) (place : ℕ) (p : F[X]) {layers : List (Layer F)}
    {later : List (LayerProof F)}
    (inside : ∀ leaf ∈ parameters.leavesOf place positions, leaf < next.size)
    (hlater : Prover.openLayers? parameters positions (place + 1) layers = .ok later) :
    Prover.openLayers? parameters positions place (round.layerOf .committed p :: layers) =
      .ok (⟨place, (round.treeOf p).root,
        (parameters.leavesOf place positions).map (round.treeOf p).opening⟩ :: later) := by
  have hinside : ∀ leaf ∈ parameters.leavesOf place positions,
      leaf < (round.treeOf p).leaves.size := by
    rwa [folds.size_leaves_treeOf]
  have hopen := Merkle.Tree.openAll?_eq_ok hinside
  show (do
    let openings ← (round.treeOf p).openAll? (parameters.leavesOf place positions)
    let later ← Prover.openLayers? parameters positions (place + 1) layers
    return (⟨place, (round.treeOf p).root, openings⟩ : LayerProof F) :: later) = _
  rw [hopen, ok_bind, hlater, ok_bind]
  rfl

/-- All layers can be opened at positions of the first word. -/
private theorem openLayers?_layersAfter {parameters : Parameters F} (oracle : InitialOracle)
    {place : ℕ} {rounds : List (Round F)} {first last : Coset F}
    (hrounds : parameters.rounds.drop place = rounds) (chain : Chain first rounds last)
    {challenges : List F} (count : challenges.length = rounds.length) (p : F[X])
    {positions : List ℕ}
    (inside : ∀ position ∈ positions.map (· / 2 ^ (parameters.localization.take place).sum),
      position < first.size) :
    Prover.openLayers? parameters positions place (layersAfter oracle rounds challenges p) =
      .ok ((layerProofs place rounds challenges p
        (positions.map (· / 2 ^ (parameters.localization.take place).sum))).drop
          oracle.unopened) := by
  induction rounds generalizing oracle place first challenges p with
  | nil =>
      cases challenges with
      | nil => cases oracle <;> rfl
      | cons _ _ => cases count
  | cons round rounds ih =>
      cases challenges with
      | nil => cases count
      | cons challenge challenges =>
          obtain ⟨next, rfl, hfolds, hchain⟩ := chain.exists_next
          have hround : parameters.rounds[place]? = some round := by
            rw [← List.head?_drop, hrounds, List.head?_cons]
          have hdrop : parameters.rounds.drop (place + 1) = rounds := by
            rw [← List.tail_drop, hrounds, List.tail_cons]
          have hpositions := parameters.map_leafOf hround positions
          have hleaves : ∀ leaf ∈ positions.map (parameters.leafOf place), leaf < next.size := by
            rw [hpositions]
            intro leaf hmem
            obtain ⟨position, hposition, rfl⟩ := List.mem_map.mp hmem
            exact hfolds.div_lt (inside position hposition)
          rw [parameters.map_leafOf_eq_div] at hleaves hpositions
          have hlater := ih .committed hdrop hchain (Nat.succ.inj count)
            (foldSlices round.cosetSize challenge p) hleaves
          rw [hpositions] at hlater
          cases oracle with
          | virtual => exact hlater
          | committed =>
              have hopened : ∀ leaf ∈ parameters.leavesOf place positions, leaf < next.size := by
                intro leaf hmem
                apply hleaves
                rwa [← parameters.map_leafOf_eq_div, ← mem_sortedDistinct]
              refine (openLayers?_cons hfolds parameters positions place p hopened hlater).trans ?_
              rw [Parameters.leavesOf, parameters.map_leafOf hround]
              rfl

end Open

namespace Prover

variable {parameters : Parameters F}

/-- Once all rounds are folded, queries inside the word are answered. -/
theorem query_after (wf : parameters.WellFormed) {p : F[X]} {challenges : List F}
    (count : challenges.length = parameters.roundCount) {positions : List ℕ}
    (inside : ∀ position ∈ positions, position < parameters.codewordLength) :
    (after parameters p challenges).query positions =
      .ok (honestProof parameters p challenges positions) := by
  have hpositions : positions.map (· / 2 ^ (parameters.localization.take 0).sum) = positions := by
    simp
  have hlayers := openLayers?_layersAfter parameters.oracle List.drop_zero wf.chain
    count p (by rwa [hpositions])
  rw [hpositions] at hlayers
  simp only [query, after, if_pos count, find?_le_eq_none inside]
  rw [hlayers, mapError_ok, ok_bind]
  rfl

/-- A prover that has folded nothing answers all challenges and queries. -/
theorem prove_after (wf : parameters.WellFormed) {p : F[X]} {challenges : List F}
    (count : challenges.length = parameters.roundCount) {positions : List ℕ}
    (inside : ∀ position ∈ positions, position < parameters.codewordLength) :
    (after parameters p []).prove challenges positions =
      (.ok (honestProof parameters p challenges positions), after parameters p challenges) := by
  have hfold := foldAll_after wf p [] challenges (by simp [count])
  rw [List.length_nil, List.nil_append] at hfold
  have hcount : ¬challenges.length ≠ (after parameters p []).parameters.roundCount :=
    not_not.mpr count
  rw [prove, if_neg hcount, hfold]
  show (query _ _, _) = _
  rw [query_after wf count inside]

end Prover
end Fri
end OracleProofs

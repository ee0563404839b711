/-
# The points of the rounds

Raising the points of a domain to the power by which its round folds gives the points
of the next domain in the same order. In bit-reversed order the points with one power
are neighbours, so a leaf holds the multiples of its first point by the points of the
subgroup of the round, and its number is the position of their common power. A position
of the first word therefore moves from round to round by losing its lowest bits.
-/

import Mathlib
import OracleProofs.Proofs.Fri.Parameters

namespace OracleProofs
namespace Fri

variable {F : Type} [FiniteField F] [LawfulField F]

namespace Round

theorem cosetBase_ne_zero (round : Round F) (leaf : ℕ) : round.cosetBase leaf ≠ 0 :=
  round.domain.point_ne_zero _

variable {round : Round F} {next : Coset F}

theorem FoldsTo.element_pow (folds : round.FoldsTo next) (index : ℕ) :
    round.domain.element index ^ round.cosetSize = next.element index := by
  rw [round.cosetSize_eq]
  exact Coset.element_pow folds.split folds.shift index

/-- The points of a leaf have one power. -/
theorem FoldsTo.point_pow (folds : round.FoldsTo next) (leaf : ℕ) {offset : ℕ}
    (inside : offset < round.cosetSize) :
    round.domain.point (leaf * round.cosetSize + offset) ^ round.cosetSize = next.point leaf := by
  rw [round.cosetSize_eq] at inside ⊢
  exact Coset.point_pow folds.split folds.shift leaf inside

theorem FoldsTo.cosetBase_pow (folds : round.FoldsTo next) (leaf : ℕ) :
    round.cosetBase leaf ^ round.cosetSize = next.point leaf :=
  folds.point_pow leaf round.cosetSize_pos

/-- A leaf is the subgroup of the round, moved by the first point. -/
theorem FoldsTo.point_leaf (folds : round.FoldsTo next) (leaf : ℕ) {offset : ℕ}
    (inside : offset < round.cosetSize) :
    round.domain.point (leaf * round.cosetSize + offset) =
      round.cosetBase leaf * round.subgroup.point offset := by
  have hexponent := folds.subgroup_dimension
  have hpoint := Coset.point_block folds.subgroup_shift (hexponent.symm ▸ folds.split) leaf
    (hexponent.symm ▸ round.cosetSize_eq ▸ inside)
  rwa [hexponent, ← round.cosetSize_eq] at hpoint

end Round

namespace Parameters

omit [LawfulField F] in
/-- The leaf of a position is reached by the shifts of the rounds, one after the other. -/
theorem leafOf?_eq_foldl {parameters : Parameters F} {round : ℕ}
    (inside : round < parameters.roundCount) (position : ℕ) :
    parameters.leafOf? round position =
      .ok ((parameters.localization.take (round + 1)).foldl (· >>> ·) position) := by
  have hshifts (exponents : List ℕ) (position : ℕ) :
      exponents.foldl (· >>> ·) position = position >>> exponents.sum := by
    induction exponents generalizing position with
    | nil => rfl
    | cons exponent rest ih => rw [List.foldl_cons, ih, List.sum_cons, Nat.shiftRight_add]
  rw [leafOf?, if_pos inside, leafOf, total_id, hshifts]

/-- Each place of an accepted localization belongs to a round that folds its domain to the
next. -/
theorem exists_foldsTo {domain : EvaluationDomain F} {degreeBound : ℕ} {localization : List ℕ}
    {parameters : Parameters F}
    (accepted : new? domain degreeBound localization = .ok parameters) {place : ℕ}
    (inside : place < localization.length) :
    ∃ round next, parameters.rounds[place]? = some round ∧
      localization[place]? = some round.exponent ∧
      parameters.domains[place]? = some round.domain ∧
      parameters.domains[place + 1]? = some next ∧ round.FoldsTo next := by
  obtain ⟨wf, -, -, rfl, -⟩ := wellFormed_of_accepted accepted
  have hplace : place < parameters.roundCount := by
    rwa [localization, List.length_map] at inside
  have hround := List.getElem?_eq_getElem hplace
  obtain ⟨next, hnext⟩ := exists_getElem?_domains hplace
  refine ⟨_, next, hround, ?_, getElem?_domains hround, hnext, wf.chain.foldsTo hround hnext⟩
  rw [localization, List.getElem?_map, hround, Option.map_some]

/-- In every round of accepted parameters the next domain has one point for each leaf and
consists of the powers of the points, the points of a leaf are those of the subgroup moved
by its first point, and the power of that is the next point at the number of the leaf.
Leaves are reached from positions by the shifts of the rounds. -/
theorem geometry_of_accepted {domain : EvaluationDomain F} {degreeBound : ℕ}
    {localization : List ℕ} {parameters : Parameters F}
    (accepted : new? domain degreeBound localization = .ok parameters)
    {place : ℕ} (inside : place < localization.length) :
    ∃ round next, parameters.rounds[place]? = some round ∧
      localization[place]? = some round.exponent ∧
      parameters.domains[place]? = some round.domain ∧
      parameters.domains[place + 1]? = some next ∧
      next.size * 2 ^ round.exponent = round.domain.size ∧
      (∀ index, next.element index = round.domain.element index ^ 2 ^ round.exponent) ∧
      (∀ leaf < round.domain.size / 2 ^ round.exponent, ∃ base,
        parameters.cosetBase? place leaf = .ok base ∧
        base ^ 2 ^ round.exponent = next.element (reverseBits next.dimension leaf) ∧
        ∀ offset < 2 ^ round.exponent,
          round.domain.element
              (reverseBits round.domain.dimension (leaf * 2 ^ round.exponent + offset)) =
            base * round.subgroup.element (reverseBits round.exponent offset)) ∧
      ∀ position, parameters.leafOf? place position =
        .ok ((localization.take (place + 1)).foldl (· >>> ·) position) := by
  obtain ⟨round, next, hround, hexponent, hdomain, hnext, hfolds⟩ := exists_foldsTo accepted inside
  obtain ⟨-, -, -, rfl, -⟩ := wellFormed_of_accepted accepted
  have hplace := (List.getElem?_eq_some_iff.mp hround).1
  refine ⟨round, next, hround, hexponent, hdomain, hnext, ?_⟩
  rw [← round.cosetSize_eq]
  refine ⟨hfolds.size_mul, fun index => (hfolds.element_pow index).symm, fun leaf _ => ?_,
    leafOf?_eq_foldl hplace⟩
  refine ⟨round.cosetBase leaf, by rw [cosetBase?, hround], hfolds.cosetBase_pow leaf, ?_⟩
  intro offset hoffset
  rw [← hfolds.subgroup_dimension]
  exact hfolds.point_leaf leaf hoffset

/-- The last leaf of the second round and the two positions at its ends. -/
theorem geometry_of_halving_then_quartering :
    ∃ base, halvingThenQuartering.cosetBase? 1 3 = .ok base ∧
      base ^ 4 = halvingThenQuartering.finalDomain.element 3 ∧
      halvingThenQuartering.domains[1]?.map (fun domain => domain.element (reverseBits 4 14)) =
        some (base * FiniteField.rootOfUnity BabyBear 2) ∧
      halvingThenQuartering.leafOf? 1 24 = .ok 3 ∧
      halvingThenQuartering.leafOf? 1 31 = .ok 3 := by
  obtain ⟨round, next, hround, -, hdomain, hnext, -, -, hleaves, hshifts⟩ :=
    geometry_of_accepted new?_halvingThenQuartering (by decide : 1 < [1, 2].length)
  cases hround
  cases hnext
  obtain ⟨base, hbase, hpower, hpoints⟩ := hleaves 3 (by decide)
  refine ⟨base, hbase, hpower, ?_, hshifts 24, hshifts 31⟩
  have hroot : (⟨2, 1, by decide, by decide⟩ : Coset BabyBear).element (reverseBits 2 2) =
      FiniteField.rootOfUnity BabyBear 2 := by
    decide +kernel
  rw [hdomain, Option.map_some, ← hroot]
  exact congrArg some (hpoints 2 (by decide))

end Parameters
end Fri
end OracleProofs

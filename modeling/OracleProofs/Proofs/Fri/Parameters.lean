/-
# Accepted parameters

The rounds of accepted parameters form a chain: each folds the domain of its
word to the domain of the next one, the image under the power of two by which it
folds. The checks on the degree bound make its quotient by all the factors a
whole number that is positive and fits every domain on the way.
-/

import Mathlib
import OracleProofs.Fri.Parameters
import OracleProofs.Proofs.Binary.Counting
import OracleProofs.Proofs.Domain.Coset
import OracleProofs.Proofs.Fault
import OracleProofs.Proofs.Field.Prime

namespace OracleProofs
namespace Fri

variable {F : Type} [FiniteField F] [LawfulField F]

/-- A round leads from its domain to the image of the domain under the power
`2 ^ exponent`, and its subgroup has that many points. -/
structure Round.FoldsTo (round : Round F) (next : Coset F) : Prop where
  exponent_pos : 0 < round.exponent
  split : round.exponent + next.dimension = round.domain.dimension
  shift : next.shift = round.domain.shift ^ 2 ^ round.exponent
  subgroup_dimension : round.subgroup.dimension = round.exponent
  subgroup_shift : round.subgroup.shift = 1

/-- The rounds lead from the first domain through those of the later rounds to
the last one. -/
inductive Chain : Coset F → List (Round F) → Coset F → Prop
  | nil (last : Coset F) : Chain last [] last
  | cons {round : Round F} {next last : Coset F} {rounds : List (Round F)}
      (folds : round.FoldsTo next) (rest : Chain next rounds last) :
      Chain round.domain (round :: rounds) last

/-- What the checks of the parameters establish. -/
structure Parameters.WellFormed (parameters : Parameters F) : Prop where
  chain : Chain parameters.initialDomain parameters.rounds parameters.finalDomain
  rounds_ne_nil : parameters.rounds ≠ []
  degreeBound_pos : 0 < parameters.degreeBound
  degreeBound_le : parameters.degreeBound ≤ parameters.initialDomain.size
  factor_dvd : 2 ^ parameters.localization.sum ∣ parameters.degreeBound

namespace Round

omit [LawfulField F] in
theorem cosetSize_eq (round : Round F) : round.cosetSize = 2 ^ round.exponent :=
  Nat.one_shiftLeft _

omit [LawfulField F] in
theorem cosetSize_pos (round : Round F) : 0 < round.cosetSize := by
  rw [cosetSize_eq]
  positivity

theorem FoldsTo.size_mul {round : Round F} {next : Coset F} (folds : round.FoldsTo next) :
    next.size * round.cosetSize = round.domain.size := by
  rw [round.cosetSize_eq, next.size_eq, round.domain.size_eq, ← folds.split, pow_add, mul_comm]

theorem FoldsTo.subgroup_size {round : Round F} {next : Coset F} (folds : round.FoldsTo next) :
    round.subgroup.size = round.cosetSize := by
  rw [Coset.size_eq, folds.subgroup_dimension, cosetSize_eq]

end Round

namespace Chain

theorem exists_next {first last : Coset F} {round : Round F} {rounds : List (Round F)}
    (chain : Chain first (round :: rounds) last) :
    ∃ next, first = round.domain ∧ round.FoldsTo next ∧ Chain next rounds last := by
  cases chain with
  | cons folds rest => exact ⟨_, rfl, folds, rest⟩

theorem getElem?_domains_zero {first last : Coset F} {rounds : List (Round F)}
    (chain : Chain first rounds last) :
    (rounds.map Round.domain ++ [last])[0]? = some first := by
  cases chain <;> rfl

theorem dimension_eq {first last : Coset F} {rounds : List (Round F)}
    (chain : Chain first rounds last) :
    (rounds.map Round.exponent).sum + last.dimension = first.dimension := by
  induction chain with
  | nil last => simp
  | cons folds rest ih =>
      rw [List.map_cons, List.sum_cons, add_assoc, ih, folds.split]

/-- Every round takes a dimension away, so there are at most as many rounds. -/
theorem length_le {first last : Coset F} {rounds : List (Round F)}
    (chain : Chain first rounds last) : rounds.length ≤ first.dimension := by
  induction chain with
  | nil last => exact Nat.zero_le _
  | cons folds rest ih =>
      have hpositive := folds.exponent_pos
      have hsplit := folds.split
      rw [List.length_cons]
      omega

/-- A round in the middle folds the domain of its word to the next domain. -/
theorem foldsTo {first last : Coset F} {rounds : List (Round F)}
    (chain : Chain first rounds last) {place : ℕ} {round : Round F} {next : Coset F}
    (hround : rounds[place]? = some round)
    (hnext : (rounds.map Round.domain ++ [last])[place + 1]? = some next) :
    round.FoldsTo next := by
  induction chain generalizing place with
  | nil last => cases hround
  | cons folds rest ih =>
      cases place with
      | zero =>
          cases hround
          cases rest with
          | nil last =>
              cases hnext
              exact folds
          | cons _ _ =>
              cases hnext
              exact folds
      | succ place => exact ih hround hnext

/-- The dimension of the word of a round is what the rounds before it leave. -/
theorem dimension_take {first last : Coset F} {rounds : List (Round F)}
    (chain : Chain first rounds last) {place : ℕ} {round : Round F}
    (hround : rounds[place]? = some round) :
    ((rounds.map Round.exponent).take place).sum + round.domain.dimension = first.dimension := by
  induction chain generalizing place with
  | nil last => cases hround
  | cons folds rest ih =>
      cases place with
      | zero =>
          cases hround
          simp
      | succ place =>
          rw [List.map_cons, List.take_succ_cons, List.sum_cons, add_assoc, ih hround, folds.split]

end Chain

namespace Parameters

private theorem chain_of_buildRounds? {domain last : Coset F} {localization : List ℕ}
    {rounds : List (Round F)} (positive : 0 ∉ localization)
    (built : buildRounds? domain localization = .ok (rounds, last)) :
    Chain domain rounds last ∧ rounds.map Round.exponent = localization := by
  induction localization generalizing domain rounds with
  | nil =>
      cases built
      exact ⟨.nil _, rfl⟩
  | cons exponent rest ih =>
      obtain ⟨subgroup, hsubgroup, hrest⟩ := bind_eq_ok_iff.mp built
      obtain ⟨next, hnext, hrest⟩ := bind_eq_ok_iff.mp hrest
      obtain ⟨⟨later, final⟩, hlater, hresult⟩ := bind_eq_ok_iff.mp hrest
      cases hresult
      obtain ⟨hsize, hshift⟩ := Coset.subgroup?_eq_ok_iff.mp hsubgroup
      obtain ⟨-, hdimension, himage⟩ := Coset.power?_eq_ok_iff.mp hnext
      obtain ⟨hchain, hlist⟩ := ih (fun hmem => positive (List.mem_cons_of_mem _ hmem)) hlater
      rw [Nat.one_shiftLeft] at hsize
      have hfolds : Round.FoldsTo ⟨domain, exponent, subgroup⟩ next :=
        { exponent_pos := Nat.pos_of_ne_zero fun hzero => positive (hzero ▸ List.mem_cons_self)
          split := by rw [add_comm, hdimension]
          shift := himage
          subgroup_dimension := (Nat.pow_right_injective le_rfl hsize).symm
          subgroup_shift := hshift }
      exact ⟨.cons hfolds hchain, by rw [List.map_cons, hlist]⟩

omit [LawfulField F] in
private theorem rounds_of_accepted {domain : EvaluationDomain F} {degreeBound : ℕ}
    {localization : List ℕ} {parameters : Parameters F}
    (accepted : new? domain degreeBound localization = .ok parameters) :
    ∃ initial, domain = .coset initial ∧ localization ≠ [] ∧ 0 ∉ localization ∧
      0 < degreeBound ∧ degreeBound ≤ initial.size ∧ 2 ^ localization.sum ∣ degreeBound ∧
      buildRounds? initial localization = .ok (parameters.rounds, parameters.finalDomain) ∧
      parameters.degreeBound = degreeBound ∧ parameters.oracle = .committed := by
  rw [new?] at accepted
  cases domain with
  | subspace space => cases accepted
  | coset initial =>
      simp only [EvaluationDomain.asCoset?, ite_error_eq_ok_iff] at accepted
      obtain ⟨hlocalization, accepted⟩ := accepted
      cases hsum : wordSum? localization with
      | none =>
          rw [hsum] at accepted
          cases accepted
      | some reduction =>
          simp only [hsum, ite_error_eq_ok_iff] at accepted
          obtain ⟨-, hdegree, hfactor, accepted⟩ := accepted
          obtain ⟨⟨rounds, last⟩, hbuilt, hresult⟩ := bind_eq_ok_iff.mp accepted
          cases hresult
          obtain ⟨hreduction, -⟩ := wordSum?_eq_some_iff.mp hsum
          simp only [Bool.or_eq_true, List.isEmpty_iff, List.contains_iff_mem,
            not_or] at hlocalization
          simp only [Bool.or_eq_true, decide_eq_true_eq, not_or, not_lt] at hdegree
          rw [not_not, Nat.one_shiftLeft, ← Nat.dvd_iff_mod_eq_zero] at hfactor
          refine ⟨initial, rfl, hlocalization.1, hlocalization.2, Nat.pos_of_ne_zero hdegree.1,
            hdegree.2, ?_, mapError_eq_ok_iff.mp hbuilt, rfl, rfl⟩
          rwa [hreduction]

/-- Accepted parameters are well formed, have a committed first word, and keep
the domain, the localization and the degree bound that they were made from. -/
theorem wellFormed_of_accepted {domain : EvaluationDomain F} {degreeBound : ℕ}
    {localization : List ℕ} {parameters : Parameters F}
    (accepted : new? domain degreeBound localization = .ok parameters) :
    parameters.WellFormed ∧ parameters.oracle = .committed ∧
      domain = .coset parameters.initialDomain ∧ parameters.localization = localization ∧
      parameters.degreeBound = degreeBound := by
  obtain ⟨initial, rfl, hnonempty, hpositive, hbound, hle, hdvd, hbuilt, hdegree, horacle⟩ :=
    rounds_of_accepted accepted
  obtain ⟨hchain, hlocalization⟩ := chain_of_buildRounds? hpositive hbuilt
  have hrounds : parameters.rounds ≠ [] := by
    rintro hnil
    rw [hnil] at hlocalization
    exact hnonempty hlocalization.symm
  have hinitial : parameters.initialDomain = initial := by
    rw [initialDomain]
    generalize parameters.rounds = rounds at hchain
    cases hchain with
    | nil => rfl
    | cons _ _ => rfl
  refine ⟨⟨?_, hrounds, ?_, ?_, ?_⟩, horacle, by rw [hinitial], hlocalization, hdegree⟩
  · rwa [hinitial]
  · rwa [hdegree]
  · rwa [hinitial, hdegree]
  · rwa [Parameters.localization, hlocalization, hdegree]

omit [LawfulField F] in
/-- A round and the domain of its word have one place. -/
theorem getElem?_domains {parameters : Parameters F} {place : ℕ} {round : Round F}
    (hround : parameters.rounds[place]? = some round) :
    parameters.domains[place]? = some round.domain := by
  have hinside := (List.getElem?_eq_some_iff.mp hround).1
  rw [domains, List.getElem?_append_left (by rwa [List.length_map]), List.getElem?_map, hround,
    Option.map_some]

omit [LawfulField F] in
/-- After every round there is a domain to fold to. -/
theorem exists_getElem?_domains {parameters : Parameters F} {place : ℕ}
    (inside : place < parameters.roundCount) :
    ∃ next, parameters.domains[place + 1]? = some next := by
  refine ⟨_, List.getElem?_eq_getElem ?_⟩
  rw [domains, List.length_append, List.length_map]
  exact Nat.succ_lt_succ inside

omit [LawfulField F] in
/-- After all rounds comes the last domain. -/
theorem getElem?_domains_roundCount (parameters : Parameters F) :
    parameters.domains[parameters.roundCount]? = some parameters.finalDomain := by
  rw [domains, List.getElem?_append_right (by rw [List.length_map]; rfl),
    List.length_map, roundCount, Nat.sub_self, List.getElem?_cons_zero]

/-- The degree bound of the word of a round: the first one divided by the factors
of the rounds before it. -/
def degreeBoundAt (parameters : Parameters F) (round : ℕ) : ℕ :=
  parameters.degreeBound / 2 ^ (parameters.localization.take round).sum

omit [LawfulField F] in
theorem degreeBoundAt_succ (parameters : Parameters F) {place : ℕ} {round : Round F}
    (hround : parameters.rounds[place]? = some round) :
    parameters.degreeBoundAt (place + 1) = parameters.degreeBoundAt place / round.cosetSize := by
  have hexponent : parameters.localization[place]? = some round.exponent := by
    rw [localization, List.getElem?_map, hround, Option.map_some]
  rw [degreeBoundAt, degreeBoundAt, List.take_add_one, hexponent, Option.toList_some,
    List.sum_append, List.sum_singleton, pow_add, ← Nat.div_div_eq_div_mul, round.cosetSize_eq]

omit [LawfulField F] in
theorem finalDegreeBound_eq_div (parameters : Parameters F) :
    parameters.finalDegreeBound = parameters.degreeBound / 2 ^ parameters.localization.sum := by
  rw [finalDegreeBound, total_id, Nat.shiftRight_eq_div_pow]

omit [LawfulField F] in
theorem finalDegreeBound_eq (parameters : Parameters F) :
    parameters.finalDegreeBound = parameters.degreeBoundAt parameters.roundCount := by
  rw [finalDegreeBound_eq_div, degreeBoundAt, List.take_of_length_le]
  rw [localization, List.length_map, roundCount]

theorem WellFormed.withOracle {parameters : Parameters F}
    (wf : parameters.WellFormed) (oracle : InitialOracle) :
    (parameters.withOracle oracle).WellFormed :=
  ⟨wf.chain, wf.rounds_ne_nil, wf.degreeBound_pos, wf.degreeBound_le, wf.factor_dvd⟩

theorem WellFormed.roundCount_pos {parameters : Parameters F} (wf : parameters.WellFormed) :
    0 < parameters.roundCount :=
  List.length_pos_iff.mpr wf.rounds_ne_nil

/-- The first round reads the first domain. -/
theorem WellFormed.exists_first {parameters : Parameters F} (wf : parameters.WellFormed) :
    ∃ (round : Round F) (rest : List (Round F)) (next : Coset F),
      parameters.rounds = round :: rest ∧ parameters.initialDomain = round.domain ∧
        parameters.initialCosetSize = round.cosetSize ∧ round.FoldsTo next ∧
        Chain next rest parameters.finalDomain := by
  have hchain := wf.chain
  cases hrounds : parameters.rounds with
  | nil => exact absurd hrounds wf.rounds_ne_nil
  | cons round rest =>
      rw [hrounds] at hchain
      obtain ⟨next, hdomain, hfolds, hrest⟩ := hchain.exists_next
      exact ⟨round, rest, next, rfl, hdomain, by rw [initialCosetSize, hrounds], hfolds, hrest⟩

/-- The bound fits the domain of every word. -/
theorem WellFormed.degreeBoundAt_le {parameters : Parameters F} (wf : parameters.WellFormed)
    {place : ℕ} {round : Round F} (hround : parameters.rounds[place]? = some round) :
    parameters.degreeBoundAt place ≤ round.domain.size := by
  have hdimension := wf.chain.dimension_take hround
  have hle := wf.degreeBound_le
  rw [Coset.size_eq, ← hdimension, pow_add] at hle
  rw [degreeBoundAt, Coset.size_eq]
  exact Nat.div_le_of_le_mul hle

theorem WellFormed.finalDegreeBound_le {parameters : Parameters F}
    (wf : parameters.WellFormed) : parameters.finalDegreeBound ≤ parameters.finalDomain.size := by
  have hle := wf.degreeBound_le
  rw [Coset.size_eq, ← wf.chain.dimension_eq, pow_add] at hle
  rw [finalDegreeBound_eq_div, Coset.size_eq]
  exact Nat.div_le_of_le_mul hle

/-- Some coefficient is left at the end. -/
theorem WellFormed.finalDegreeBound_pos {parameters : Parameters F}
    (wf : parameters.WellFormed) : 0 < parameters.finalDegreeBound := by
  rw [finalDegreeBound_eq_div]
  exact Nat.div_pos (Nat.le_of_dvd wf.degreeBound_pos wf.factor_dvd) (by positivity)

/-- Two halvings of eight points, for polynomials of at most four coefficients. -/
def twoHalvings : Parameters BabyBear where
  rounds := [⟨⟨3, 1, by decide, by decide⟩, 1, ⟨1, 1, by decide, by decide⟩⟩,
    ⟨⟨2, 1, by decide, by decide⟩, 1, ⟨1, 1, by decide, by decide⟩⟩]
  finalDomain := ⟨1, 1, by decide, by decide⟩
  degreeBound := 4
  oracle := .committed

theorem new?_twoHalvings :
    new? (.coset ⟨3, 1, by decide, by decide⟩) 4 [1, 1] = .ok twoHalvings := rfl

/-- A halving and then a fold by four, of thirty-two points moved by `3`, for polynomials of
at most eight coefficients. -/
def halvingThenQuartering : Parameters BabyBear where
  rounds := [⟨⟨5, Residue.ofNat 3, by decide, by decide⟩, 1, ⟨1, 1, by decide, by decide⟩⟩,
    ⟨⟨4, Residue.ofNat 9, by decide, by decide⟩, 2, ⟨2, 1, by decide, by decide⟩⟩]
  finalDomain := ⟨2, Residue.ofNat 6561, by decide, by decide⟩
  degreeBound := 8
  oracle := .committed

theorem new?_halvingThenQuartering :
    new? (.coset ⟨5, Residue.ofNat 3, by decide, by decide⟩) 8 [1, 2] =
      .ok halvingThenQuartering := rfl

/-- Thirty-two points moved by `3`. -/
def thirtyTwoPoints : Coset BabyBear := ⟨5, Residue.ofNat 3, by decide, by decide⟩

/-- Their squares. -/
def sixteenPoints : Coset BabyBear := ⟨4, Residue.ofNat 9, by decide, by decide⟩

/-- The subgroup of order thirty-two. -/
def thirtyTwoRoots : Coset BabyBear := ⟨5, 1, by decide, by decide⟩

/-- The subgroup of order sixteen. -/
def sixteenRoots : Coset BabyBear := ⟨4, 1, by decide, by decide⟩

end Parameters
end Fri
end OracleProofs

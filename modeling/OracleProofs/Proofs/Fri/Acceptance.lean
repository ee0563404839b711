/-
# Which parameters are accepted

The checks of the parameters come in a fixed order, and each answer names the first
requirement that the arguments miss. Once all checks have passed, the domains of the
rounds can be built: every exponent is at most the dimension that is left, so none of the
errors of a domain is ever met. One requirement cannot be checked as it is meant. The
exponents are added up before they are compared with the dimension, and a list whose sum
is no word breaks off there. That this is the only place is shown on a form in which sums,
shifts and indices are those of words: a loop that appends a domain and a subgroup for each
exponent to the lists it has so far.
-/

import Mathlib
import OracleProofs.Proofs.Binary.Word
import OracleProofs.Proofs.Fri.Parameters

namespace OracleProofs
namespace Fri

variable {F : Type} [FiniteField F]

namespace Parameters

/-- Arguments from which parameters can be made. -/
structure Valid (initial : Coset F) (degreeBound : ℕ) (localization : List ℕ) : Prop where
  rounds : localization ≠ []
  folds : 0 ∉ localization
  depth : localization.sum ≤ initial.dimension
  degreeBound_pos : 0 < degreeBound
  degreeBound_le : degreeBound ≤ initial.size
  factor_dvd : 2 ^ localization.sum ∣ degreeBound

/-- The first requirement that arguments miss. -/
inductive Refused (degreeBound : ℕ) (localization : List ℕ) :
    EvaluationDomain F → FriError → Prop
  | subspace (space : AffineSubspace F) :
      Refused degreeBound localization (.subspace space) .additiveDomain
  | list (initial : Coset F) (missing : localization = [] ∨ 0 ∈ localization) :
      Refused degreeBound localization (.coset initial) .invalidLocalization
  | overflow (initial : Coset F) (rounds : localization ≠ []) (folds : 0 ∉ localization)
      (large : wordValues ≤ localization.sum) :
      Refused degreeBound localization (.coset initial) (.domain (.fault .overflow))
  | depth (initial : Coset F) (rounds : localization ≠ []) (folds : 0 ∉ localization)
      (word : localization.sum < wordValues) (deep : initial.dimension < localization.sum) :
      Refused degreeBound localization (.coset initial)
        (.localizationTooDeep localization.sum initial.dimension)
  | bound (initial : Coset F) (rounds : localization ≠ []) (folds : 0 ∉ localization)
      (depth : localization.sum ≤ initial.dimension)
      (unusable : degreeBound = 0 ∨ initial.size < degreeBound) :
      Refused degreeBound localization (.coset initial)
        (.invalidDegreeBound degreeBound initial.size)
  | factor (initial : Coset F) (rounds : localization ≠ []) (folds : 0 ∉ localization)
      (depth : localization.sum ≤ initial.dimension) (positive : 0 < degreeBound)
      (le : degreeBound ≤ initial.size) (unaligned : ¬2 ^ localization.sum ∣ degreeBound) :
      Refused degreeBound localization (.coset initial)
        (.unalignedDegreeBound degreeBound (2 ^ localization.sum))

/-- Either arguments are valid or they miss a requirement. -/
theorem valid_or_refused (domain : EvaluationDomain F) (degreeBound : ℕ)
    (localization : List ℕ) :
    (∃ initial, domain = .coset initial ∧ Valid initial degreeBound localization) ∨
      ∃ error, Refused degreeBound localization domain error := by
  cases domain with
  | subspace space => exact .inr ⟨_, .subspace space⟩
  | coset initial =>
      by_cases hlist : localization = [] ∨ 0 ∈ localization
      · exact .inr ⟨_, .list initial hlist⟩
      obtain ⟨hrounds, hfolds⟩ := not_or.mp hlist
      by_cases hlarge : wordValues ≤ localization.sum
      · exact .inr ⟨_, .overflow initial hrounds hfolds hlarge⟩
      by_cases hdeep : initial.dimension < localization.sum
      · exact .inr ⟨_, .depth initial hrounds hfolds (not_le.mp hlarge) hdeep⟩
      by_cases hbound : degreeBound = 0 ∨ initial.size < degreeBound
      · exact .inr ⟨_, .bound initial hrounds hfolds (not_lt.mp hdeep) hbound⟩
      obtain ⟨hpositive, hle⟩ := not_or.mp hbound
      by_cases hfactor : 2 ^ localization.sum ∣ degreeBound
      · exact .inl ⟨initial, rfl, hrounds, hfolds, not_lt.mp hdeep,
          Nat.pos_of_ne_zero hpositive, not_lt.mp hle, hfactor⟩
      · exact .inr ⟨_, .factor initial hrounds hfolds (not_lt.mp hdeep)
          (Nat.pos_of_ne_zero hpositive) (not_lt.mp hle) hfactor⟩

section Checks

variable {initial : Coset F} {degreeBound : ℕ} {localization : List ℕ}

private theorem list_check_iff :
    (localization.isEmpty || localization.contains 0) = true ↔
      localization = [] ∨ 0 ∈ localization := by
  rw [Bool.or_eq_true, List.isEmpty_iff, List.contains_iff_mem]

/-- What is left of the checks once the exponents are known to be positive. -/
private theorem new?_of_positive (rounds : localization ≠ []) (folds : 0 ∉ localization)
    (word : localization.sum < wordValues) :
    new? (.coset initial) degreeBound localization = (do
      if initial.dimension < localization.sum then
        .error (.localizationTooDeep localization.sum initial.dimension)
      if degreeBound = 0 || initial.size < degreeBound then
        .error (.invalidDegreeBound degreeBound initial.size)
      if degreeBound % (1 <<< localization.sum) ≠ 0 then
        .error (.unalignedDegreeBound degreeBound (1 <<< localization.sum))
      let (rounds, finalDomain) ← (buildRounds? initial localization).mapError .domain
      return { rounds, finalDomain, degreeBound, oracle := .committed }) := by
  have hlist := mt list_check_iff.mp (not_or.mpr ⟨rounds, folds⟩)
  have hsum : wordSum? localization = some localization.sum :=
    wordSum?_eq_some_iff.mpr ⟨rfl, word⟩
  simp only [new?, EvaluationDomain.asCoset?, if_neg hlist, hsum]

omit [FiniteField F] in
private theorem bound_check_iff (size : ℕ) :
    (decide (degreeBound = 0) || decide (size < degreeBound)) = true ↔
      degreeBound = 0 ∨ size < degreeBound := by
  rw [Bool.or_eq_true, decide_eq_true_iff, decide_eq_true_iff]

private theorem word_of_depth (word : initial.size < wordValues)
    (depth : localization.sum ≤ initial.dimension) : localization.sum < wordValues := by
  have hwords : wordBits < wordValues := by decide
  exact (depth.trans_lt (Coset.dimension_lt_wordBits word)).trans hwords

/-- Arguments that miss a requirement are refused with the error that belongs to it. -/
theorem new?_eq_error_of_refused {domain : EvaluationDomain F} {error : FriError}
    (word : domain.size < wordValues) (refused : Refused degreeBound localization domain error) :
    new? domain degreeBound localization = .error error := by
  cases refused with
  | subspace space => rfl
  | list initial missing =>
      simp only [new?, EvaluationDomain.asCoset?, if_pos (list_check_iff.mpr missing)]
      rfl
  | overflow initial rounds folds large =>
      have hlist := mt list_check_iff.mp (not_or.mpr ⟨rounds, folds⟩)
      have hsum : wordSum? localization = none := by
        rw [wordSum?, total_id, if_neg (not_lt.mpr large)]
      simp only [new?, EvaluationDomain.asCoset?, if_neg hlist, hsum]
  | depth initial rounds folds small deep =>
      rw [new?_of_positive rounds folds small]
      simp only [if_pos deep]
      rfl
  | bound initial rounds folds depth unusable =>
      rw [new?_of_positive rounds folds (word_of_depth word depth)]
      simp only [if_neg (not_lt.mpr depth), if_pos ((bound_check_iff _).mpr unusable)]
      rfl
  | factor initial rounds folds depth positive le unaligned =>
      have hbound := mt (bound_check_iff initial.size).mp
        (not_or.mpr ⟨positive.ne', not_lt.mpr le⟩)
      have hfactor : degreeBound % 2 ^ localization.sum ≠ 0 := fun hzero =>
        unaligned (Nat.dvd_of_mod_eq_zero hzero)
      rw [new?_of_positive rounds folds (word_of_depth word depth)]
      simp only [if_neg (not_lt.mpr depth), if_neg hbound, Nat.one_shiftLeft, if_pos hfactor]
      rfl

/-- Valid arguments pass all checks. -/
private theorem new?_of_valid (word : initial.size < wordValues)
    (valid : Valid initial degreeBound localization) :
    new? (.coset initial) degreeBound localization = (do
      let (rounds, finalDomain) ← (buildRounds? initial localization).mapError .domain
      return { rounds, finalDomain, degreeBound, oracle := .committed }) := by
  have hbound := mt (bound_check_iff initial.size).mp
    (not_or.mpr ⟨valid.degreeBound_pos.ne', not_lt.mpr valid.degreeBound_le⟩)
  have hfactor : ¬degreeBound % 2 ^ localization.sum ≠ 0 :=
    not_not.mpr (Nat.mod_eq_zero_of_dvd valid.factor_dvd)
  rw [new?_of_positive valid.rounds valid.folds (word_of_depth word valid.depth)]
  simp only [if_neg (not_lt.mpr valid.depth), if_neg hbound, Nat.one_shiftLeft, if_neg hfactor]

end Checks

section Build

variable [LawfulField F]

/-- A round can be built up to the dimension of its domain. -/
private theorem exists_round {domain : Coset F} {exponent : ℕ}
    (small : domain.dimension < wordBits) (le : exponent ≤ domain.dimension) :
    ∃ subgroup next : Coset F, Coset.subgroup? (1 <<< exponent) = .ok subgroup ∧
      domain.power? exponent = .ok next ∧ next.dimension = domain.dimension - exponent := by
  let subgroup : Coset F := ⟨exponent, 1, le.trans domain.dimension_le, one_ne_zero⟩
  let next : Coset F := ⟨domain.dimension - exponent, domain.shift ^ 2 ^ exponent,
    (Nat.sub_le _ _).trans domain.dimension_le, pow_ne_zero _ domain.shift_ne_zero⟩
  have hsubgroup : Coset.subgroup? (1 <<< exponent) = .ok subgroup :=
    Coset.subgroup?_eq_ok_iff.mpr ⟨Nat.one_shiftLeft exponent, rfl⟩
  have hnext : domain.power? exponent = .ok next :=
    Coset.power?_eq_ok_iff.mpr ⟨le.trans_lt small, Nat.sub_add_cancel le, rfl⟩
  exact ⟨subgroup, next, hsubgroup, hnext, rfl⟩

/-- As long as the exponents leave a domain, all domains of the rounds can be built. -/
theorem exists_buildRounds?_eq_ok {domain : Coset F} {localization : List ℕ}
    (small : domain.dimension < wordBits) (depth : localization.sum ≤ domain.dimension) :
    ∃ built, buildRounds? domain localization = .ok built := by
  induction localization generalizing domain with
  | nil => exact ⟨_, rfl⟩
  | cons exponent rest ih =>
      rw [List.sum_cons] at depth
      have hexponent : exponent ≤ domain.dimension := (Nat.le_add_right _ _).trans depth
      obtain ⟨subgroup, next, hsubgroup, hnext, hdimension⟩ := exists_round small hexponent
      -- the later exponents fit into what this round leaves
      have hrest : ∃ built, buildRounds? next rest = .ok built := ih (by omega) (by omega)
      obtain ⟨built, hbuilt⟩ := hrest
      rw [buildRounds?, hsubgroup, ok_bind, hnext, ok_bind, hbuilt]
      exact ⟨_, rfl⟩

/-- Valid arguments are accepted. -/
theorem exists_new?_eq_ok {initial : Coset F} {degreeBound : ℕ} {localization : List ℕ}
    (word : initial.size < wordValues) (valid : Valid initial degreeBound localization) :
    ∃ parameters, new? (.coset initial) degreeBound localization = .ok parameters := by
  obtain ⟨⟨rounds, last⟩, hbuilt⟩ :=
    exists_buildRounds?_eq_ok (Coset.dimension_lt_wordBits word) valid.depth
  rw [new?_of_valid word valid, hbuilt]
  exact ⟨_, rfl⟩

end Build

end Parameters

namespace Guarded

/-- The image of a coset, whose size and exponent are found by shifts. -/
def power? (coset : Coset F) (exponent : ℕ) : Except DomainError (Coset F) := do
  let size ← (shiftRight? coset.size exponent).mapError .fault
  let factor ← (shiftLeft? 1 exponent).mapError .fault
  Coset.ofSize? size (power coset.shift factor)

/-- Appends a domain to the list of all domains and a subgroup to the list of all subgroups. The
round starts from the domain that stands last in the list. -/
def appendRound (built : List (Coset F) × List (Coset F)) (exponent : ℕ) :
    Except DomainError (List (Coset F) × List (Coset F)) := do
  let size ← (shiftLeft? 1 exponent).mapError .fault
  let subgroup ← Coset.subgroup? size
  let place ← (subtract? built.1.length 1).mapError .fault
  let domain ← (demand built.1[place]?).mapError .fault
  let next ← power? domain exponent
  return (built.1 ++ [next], built.2 ++ [subgroup])

/-- The checks in their order and the loop that builds the rounds, with the domains and the
subgroups of the rounds as the answer. -/
def new? (domain : EvaluationDomain F) (degreeBound : ℕ) (localization : List ℕ) :
    Except FriError (List (Coset F) × List (Coset F)) := do
  let some initial := domain.asCoset? | .error .additiveDomain
  if localization.isEmpty || localization.contains 0 then .error .invalidLocalization
  let reduction ← (runningSum? localization).mapError fun fault => .domain (.fault fault)
  if initial.dimension < reduction then
    .error (.localizationTooDeep reduction initial.dimension)
  if degreeBound = 0 || initial.size < degreeBound then
    .error (.invalidDegreeBound degreeBound initial.size)
  let factor ← (shiftLeft? 1 reduction).mapError fun fault => .domain (.fault fault)
  if degreeBound % factor ≠ 0 then .error (.unalignedDegreeBound degreeBound factor)
  (localization.foldlM appendRound ([initial], [])).mapError .domain

theorem power?_eq (coset : Coset F) (exponent : ℕ) :
    power? coset exponent = coset.power? exponent := by
  rw [power?, Coset.power?]
  by_cases hroom : exponent < wordBits
  · rw [shiftRight?_eq_ok hroom, mapError_ok, ok_bind, shiftLeft?_one_eq_ok hroom, mapError_ok,
      ok_bind, if_pos hroom, Nat.shiftRight_eq_div_pow, Nat.one_shiftLeft]
  · rw [shiftRight?, if_neg hroom, if_neg hroom]
    rfl

theorem appendRound_eq (before : List (Coset F)) (domain : Coset F) (subgroups : List (Coset F))
    {exponent : ℕ} (room : exponent < wordBits) :
    appendRound (before ++ [domain], subgroups) exponent = (do
      let subgroup ← Coset.subgroup? (1 <<< exponent)
      let next ← domain.power? exponent
      return (before ++ [domain] ++ [next], subgroups ++ [subgroup])) := by
  have hlength : (before ++ [domain]).length = before.length + 1 := by simp
  have hlast : (before ++ [domain])[before.length]? = some domain := by simp
  simp only [appendRound, shiftLeft?_one_eq_ok room, mapError_ok, ok_bind, hlength,
    subtract?_eq_ok (Nat.le_add_left 1 before.length), Nat.add_sub_cancel, hlast, demand_some,
    power?_eq, Nat.one_shiftLeft]

variable [LawfulField F]

/-- The loop lists the domains and the subgroups of the rounds behind those of earlier rounds. -/
theorem foldlM_appendRound_eq {domain : Coset F} {localization : List ℕ}
    (small : domain.dimension < wordBits) (depth : localization.sum ≤ domain.dimension)
    (before subgroups : List (Coset F)) :
    localization.foldlM appendRound (before ++ [domain], subgroups) =
      (Parameters.buildRounds? domain localization).map fun built =>
        (before ++ (built.1.map Round.domain ++ [built.2]),
          subgroups ++ built.1.map Round.subgroup) := by
  induction localization generalizing domain before subgroups with
  | nil =>
      simp only [List.foldlM_nil, Parameters.buildRounds?, Except.map, List.map_nil,
        List.nil_append, List.append_nil]
      rfl
  | cons exponent rest ih =>
      rw [List.sum_cons] at depth
      have hexponent : exponent ≤ domain.dimension := (Nat.le_add_right _ _).trans depth
      obtain ⟨subgroup, next, hsubgroup, hnext, hdimension⟩ :=
        Parameters.exists_round small hexponent
      have hsmall : next.dimension < wordBits := by omega
      have hdepth : rest.sum ≤ next.dimension := by omega
      have hrest := ih hsmall hdepth (before ++ [domain]) (subgroups ++ [subgroup])
      rw [List.foldlM_cons, appendRound_eq _ _ _ (hexponent.trans_lt small),
        Parameters.buildRounds?, hsubgroup, ok_bind, ok_bind, hnext, ok_bind, ok_bind]
      refine hrest.trans ?_
      cases Parameters.buildRounds? next rest with
      | error error => rfl
      | ok built => simp [Except.map]

/-- The computation on words has the domains and subgroups of the parameters as its answer, and
refuses and breaks off where they are refused. -/
theorem new?_eq {domain : EvaluationDomain F} (word : domain.size < wordValues)
    (degreeBound : ℕ) (localization : List ℕ) :
    new? domain degreeBound localization =
      (Parameters.new? domain degreeBound localization).map fun parameters =>
        (parameters.domains, parameters.rounds.map Round.subgroup) := by
  cases domain with
  | subspace space => rfl
  | coset initial =>
      simp only [new?, Parameters.new?, EvaluationDomain.asCoset?]
      refine ite_error_eq_map fun _ => ?_
      rw [runningSum?_eq, wordSum?, total_id]
      by_cases hsum : localization.sum < wordValues
      · simp only [if_pos hsum, mapError_ok, ok_bind]
        -- the shift comes after the depth was checked, so it stays within a word
        refine ite_error_eq_map fun hdepth => ite_error_eq_map fun _ => ?_
        have hsmall := Coset.dimension_lt_wordBits word
        have hroom : localization.sum < wordBits := (not_lt.mp hdepth).trans_lt hsmall
        simp only [shiftLeft?_one_eq_ok hroom, mapError_ok, ok_bind, Nat.one_shiftLeft]
        refine ite_error_eq_map fun _ => ?_
        have hbuilt := foldlM_appendRound_eq hsmall (not_lt.mp hdepth) [] []
        rw [List.nil_append] at hbuilt
        rw [hbuilt]
        cases Parameters.buildRounds? initial localization <;> rfl
      · simp only [if_neg hsum]
        rfl

/-- The number of coefficients of the final polynomial, found by a shift. -/
def finalDegreeBound? (parameters : Parameters F) : Except Fault ℕ := do
  shiftRight? parameters.degreeBound (← runningSum? parameters.localization)

theorem finalDegreeBound?_eq {parameters : Parameters F} (wf : parameters.WellFormed)
    (word : parameters.codewordLength < wordValues) :
    finalDegreeBound? parameters = .ok parameters.finalDegreeBound := by
  have hsmall : parameters.initialDomain.dimension < wordBits := Coset.dimension_lt_wordBits word
  have hdepth : parameters.localization.sum ≤ parameters.initialDomain.dimension :=
    Nat.le_of_add_right_le wf.chain.dimension_eq.le
  have hsum := Parameters.word_of_depth word hdepth
  rw [finalDegreeBound?, runningSum?_eq, if_pos hsum, ok_bind,
    shiftRight?_eq_ok (hdepth.trans_lt hsmall), Parameters.finalDegreeBound_eq_div]

end Guarded

namespace Parameters

variable [LawfulField F]

/-- For a domain whose size is a word, exactly the valid arguments are accepted. All others are
refused with the error of the first requirement they miss, except that a list of positive
exponents whose sum is no word breaks off.
Every other operation on words goes through, with the domains and the subgroups of the rounds as
its outcome. The final degree bound of accepted parameters is positive and fits the last domain. -/
theorem accepted_iff_valid {domain : EvaluationDomain F} (word : domain.size < wordValues)
    (degreeBound : ℕ) (localization : List ℕ) :
    ((∃ parameters, new? domain degreeBound localization = .ok parameters) ↔
        ∃ initial, domain = .coset initial ∧ Valid initial degreeBound localization) ∧
      (∀ error, new? domain degreeBound localization = .error error ↔
        Refused degreeBound localization domain error) ∧
      (∀ fault, new? domain degreeBound localization = .error (.domain (.fault fault)) ↔
        fault = .overflow ∧ (∃ initial, domain = .coset initial) ∧ localization ≠ [] ∧
          0 ∉ localization ∧ wordValues ≤ localization.sum) ∧
      (Guarded.new? domain degreeBound localization =
        (new? domain degreeBound localization).map fun parameters =>
          (parameters.domains, parameters.rounds.map Round.subgroup)) ∧
      ∀ parameters, new? domain degreeBound localization = .ok parameters →
        Guarded.finalDegreeBound? parameters = .ok parameters.finalDegreeBound ∧
          1 ≤ parameters.finalDegreeBound ∧
            parameters.finalDegreeBound ≤ parameters.finalDomain.size := by
  have hanswers : (∃ initial, domain = .coset initial ∧ Valid initial degreeBound localization) →
      ∃ parameters, new? domain degreeBound localization = .ok parameters := by
    rintro ⟨initial, rfl, hvalid⟩
    exact exists_new?_eq_ok word hvalid
  obtain ⟨hvalid, hrefused⟩ := outcome_iff hanswers (fun _ => new?_eq_error_of_refused word)
    (valid_or_refused domain degreeBound localization)
  refine ⟨hvalid, hrefused, fun fault => (hrefused _).trans ⟨?_, ?_⟩,
    Guarded.new?_eq word degreeBound localization, ?_⟩
  · intro hfault
    cases hfault with
    | overflow initial hrounds hfolds hlarge =>
        exact ⟨rfl, ⟨initial, rfl⟩, hrounds, hfolds, hlarge⟩
  · rintro ⟨rfl, ⟨initial, rfl⟩, hrounds, hfolds, hlarge⟩
    exact .overflow initial hrounds hfolds hlarge
  · intro parameters haccepted
    obtain ⟨hwellFormed, -, rfl, -⟩ := wellFormed_of_accepted haccepted
    exact ⟨Guarded.finalDegreeBound?_eq hwellFormed word, hwellFormed.finalDegreeBound_pos,
      hwellFormed.finalDegreeBound_le⟩

theorem accepted_two_halvings :
    new? (.coset twoHalvings.initialDomain) 4 [1, 1] = .ok twoHalvings ∧
      Valid twoHalvings.initialDomain 4 [1, 1] ∧
        1 ≤ twoHalvings.finalDegreeBound ∧
          twoHalvings.finalDegreeBound ≤ twoHalvings.finalDomain.size := by
  have hword : (EvaluationDomain.coset twoHalvings.initialDomain).size < wordValues := by decide
  have haccepted : new? (.coset twoHalvings.initialDomain) 4 [1, 1] = .ok twoHalvings :=
    new?_twoHalvings
  obtain ⟨hvalid, -, -, -, hfinal⟩ := accepted_iff_valid hword 4 [1, 1]
  obtain ⟨initial, hinitial, hvalid⟩ := hvalid.mp ⟨twoHalvings, haccepted⟩
  cases hinitial
  exact ⟨haccepted, hvalid, (hfinal twoHalvings haccepted).2⟩

/-- Two exponents of half a word each fold more than the three dimensions of eight points, but no
error says so. -/
theorem breaks_off_on_half_words :
    twoHalvings.initialDomain.dimension < [2 ^ 63, 2 ^ 63].sum ∧
      new? (.coset twoHalvings.initialDomain) 4 [2 ^ 63, 2 ^ 63] =
        .error (.domain (.fault .overflow)) ∧
      ∀ reduction dimension, new? (.coset twoHalvings.initialDomain) 4 [2 ^ 63, 2 ^ 63] ≠
        .error (.localizationTooDeep reduction dimension) := by
  have hword : (EvaluationDomain.coset twoHalvings.initialDomain).size < wordValues := by decide
  have hlarge : wordValues ≤ [2 ^ 63, 2 ^ 63].sum := by decide
  have hfault : new? (.coset twoHalvings.initialDomain) 4 [2 ^ 63, 2 ^ 63] =
      .error (.domain (.fault .overflow)) :=
    new?_eq_error_of_refused hword (.overflow _ (by decide) (by decide) hlarge)
  refine ⟨by decide, hfault, fun reduction dimension hdeep => ?_⟩
  cases hfault.symm.trans hdeep

end Parameters
end Fri
end OracleProofs

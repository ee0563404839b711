/-
# Checks of the low-degree test that never break off

A proof comes from somebody else, so nothing about the lengths of its parts may be taken
for granted. Here the checks are written as a machine carries them out: every round, layer,
leaf and value is read by its number, every sum, difference and shift is one that may break
off, and indices are reversed as words. If the length of the first word is itself a word,
the guarded checks give the same answers as the plain ones, and the plain ones always
answer.
-/

import Mathlib
import OracleProofs.Proofs.Binary.Word
import OracleProofs.Proofs.Fri.Acceptance
import OracleProofs.Proofs.Fri.FullQuery

namespace OracleProofs
namespace Fri

variable {F : Type} [FiniteField F]

namespace Guarded

/-- Whether a layer belongs to the round of the given number. -/
def checkLayer (parameters : Parameters F) (place : ℕ) (layer : LayerProof F) :
    Except Fault Bool := do
  if layer.round ≠ place then return false
  if !Verifier.increasing (layer.openings.map Merkle.Opening.index) then return false
  let round ← demand parameters.rounds[place]?
  let domain ← demand parameters.domains[place]?
  let size ← shiftLeft? 1 round.exponent
  let depth ← subtract? domain.dimension round.exponent
  return layer.openings.all fun opening => layer.root.verify opening size depth

/-- Whether layers belong to the rounds from `first + offset` on. -/
def checkLayers (parameters : Parameters F) (first : ℕ) : (offset : ℕ) → List (LayerProof F) →
    Except Fault Bool
  | _, [] => .ok true
  | offset, layer :: layers => do
      let place ← add? first offset
      if ← checkLayer parameters place layer then checkLayers parameters first (offset + 1) layers
      else return false

/-- The values of a leaf of a round: given for the first round of a virtual word, and
looked up in the layer of the round otherwise. -/
def readLeaf (proof : Proof F) (given? : Option (Array F)) (round leaf : ℕ) :
    Except Fault (Option (Array F)) :=
  match if round = 0 then given? else none with
  | some values => .ok (some values)
  | none => do
      let place ← subtract? round (if given?.isSome then 1 else 0)
      let layer ← demand proof.layers[place]?
      return layer.leaf? leaf

/-- Whether the value that an earlier round folded to stands in a leaf. Its place is given by
the low bits of the position. -/
def continues (expected? : Option F) (values : Array F) (size position : ℕ) :
    Except Fault Bool :=
  match expected? with
  | none => .ok true
  | some expected => do
      let mask ← subtract? size 1
      let value ← demand values[position &&& mask]?
      return value = expected

/-- The first point of a leaf of a round. -/
def cosetBase (parameters : Parameters F) (round leaf : ℕ) : Except Fault F := do
  let stage ← demand parameters.rounds[round]?
  let domain ← demand parameters.domains[round]?
  let start ← shiftLeft? leaf stage.exponent
  let index ← reverseWord? domain.dimension start
  return domain.element index

/-- The folded value of a leaf, or nothing if the leaf cannot be folded. -/
def foldOpened (parameters : Parameters F) (round : ℕ) (challenge : F) (leaf : ℕ)
    (values : Array F) : Except Fault (Option F) := do
  let base ← cosetBase parameters round leaf
  match FiniteField.inverse? base with
  | none => return none
  | some inverse => do
      let stage ← demand parameters.rounds[round]?
      match foldCoset? stage.subgroup values (challenge * inverse) with
      | .ok value => return some value
      | .error (.fault cause) => .error cause
      | .error _ => return none

/-- Follows one position through the rounds from `round` on. -/
def followQuery (parameters : Parameters F) (proof : Proof F) (given? : Option (Array F)) :
    (round : ℕ) → (challenges : List F) → (expected? : Option F) → (position : ℕ) →
    Except Fault Bool
  | _, [], expected?, position => do
      let domain ← demand parameters.domains[parameters.roundCount]?
      let index ← reverseWord? domain.dimension position
      return expected? = some (FiniteField.horner proof.finalPolynomial (domain.element index))
  | round, challenge :: challenges, expected?, position => do
      let stage ← demand parameters.rounds[round]?
      let size ← shiftLeft? 1 stage.exponent
      let leaf ← shiftRight? position stage.exponent
      let some values ← readLeaf proof given? round leaf | return false
      if values.size ≠ size then return false
      if !(← continues expected? values size position) then return false
      let some value ← foldOpened parameters round challenge leaf values | return false
      followQuery parameters proof given? (round + 1) challenges (some value) leaf

/-- Follows one position of the first word, if it lies inside. The values that are given
for it are found by the number of the query. -/
def checkQuery (parameters : Parameters F) (proof : Proof F) (challenges : List F)
    (given? : Option (List (Array F))) (position query : ℕ) : Except Fault Bool := do
  let domain ← demand parameters.domains[0]?
  if domain.size ≤ position then return false
  let leaf? ← given?.mapM fun given => demand given[query]?
  followQuery parameters proof leaf? 0 challenges none position

/-- The checks common to both kinds of first word. -/
def check (parameters : Parameters F) (proof : Proof F) (challenges : List F)
    (positions : List ℕ) (given? : Option (List (Array F))) : Except Fault Bool := do
  if challenges.length ≠ parameters.roundCount then return false
  let first := if given?.isSome then 1 else 0
  let count ← subtract? parameters.roundCount first
  if proof.layers.length ≠ count then return false
  if !(← checkLayers parameters first 0 proof.layers) then return false
  let bound ← finalDegreeBound? parameters
  if bound < proof.finalPolynomial.size then return false
  Verifier.allM
    (fun (position, query) => checkQuery parameters proof challenges given? position query)
    positions.zipIdx

/-- Checks a proof about a committed word. -/
def verify (parameters : Parameters F) (proof : Proof F) (challenges : List F)
    (positions : List ℕ) : Except Fault Bool :=
  match parameters.oracle with
  | .committed => check parameters proof challenges positions none
  | .virtual => .ok false

/-- Checks a proof about a virtual word, of which the leaf of each position is given. -/
def verifyGiven (parameters : Parameters F) (proof : Proof F) (challenges : List F)
    (positions : List ℕ) (given : List (Array F)) : Except Fault Bool :=
  match parameters.oracle with
  | .committed => .ok false
  | .virtual =>
      if given.length ≠ positions.length then .ok false
      else check parameters proof challenges positions (some given)

variable [LawfulField F] {parameters : Parameters F}

/-- A round is read together with the domain of its word, and both are small. -/
theorem domain_of_round (wf : parameters.WellFormed)
    (word : parameters.codewordLength < wordValues) {place : ℕ} {round : Round F}
    (hround : parameters.rounds[place]? = some round) :
    parameters.domains[place]? = some round.domain ∧
      round.exponent ≤ round.domain.dimension ∧ round.domain.dimension < wordBits := by
  have hdimension := wf.chain.dimension_take hround
  obtain ⟨next, hnext⟩ :=
    Parameters.exists_getElem?_domains (List.getElem?_eq_some_iff.mp hround).1
  have hsplit := (wf.chain.foldsTo hround hnext).split
  have hfirst : parameters.initialDomain.dimension < wordBits :=
    Coset.dimension_lt_wordBits word
  exact ⟨Parameters.getElem?_domains hround, by omega, by omega⟩

theorem finalDimension_lt (wf : parameters.WellFormed)
    (word : parameters.codewordLength < wordValues) :
    parameters.finalDomain.dimension < wordBits := by
  have hsum := wf.chain.dimension_eq
  exact (Nat.le_of_add_left_le hsum.le).trans_lt (Coset.dimension_lt_wordBits word)

theorem roundCount_lt (wf : parameters.WellFormed)
    (word : parameters.codewordLength < wordValues) : parameters.roundCount < wordValues := by
  have hcount : parameters.roundCount ≤ parameters.initialDomain.dimension := wf.chain.length_le
  have hdimension : parameters.initialDomain.dimension < wordBits :=
    Coset.dimension_lt_wordBits word
  have hbits : wordBits < wordValues := by decide
  omega

omit [LawfulField F] in
/-- The number of values of a leaf is a word. -/
theorem shiftLeft?_exponent {round : Round F} (room : round.exponent < wordBits) :
    shiftLeft? 1 round.exponent = .ok round.cosetSize := by
  rw [shiftLeft?_one_eq_ok room, round.cosetSize_eq]

theorem checkLayer_eq (wf : parameters.WellFormed)
    (word : parameters.codewordLength < wordValues) {place : ℕ} {round : Round F}
    (hround : parameters.rounds[place]? = some round) (layer : LayerProof F) :
    checkLayer parameters place layer = .ok (Verifier.checkLayer place round layer) := by
  obtain ⟨hdomain, hexponent, hdimension⟩ := domain_of_round wf word hround
  have hsize := shiftLeft?_exponent (hexponent.trans_lt hdimension)
  rw [checkLayer, Verifier.checkLayer, hround, hdomain, demand_some, demand_some, ok_bind, ok_bind,
    hsize, ok_bind, subtract?_eq_ok hexponent, ok_bind]
  by_cases hplace : layer.round = place
  · rw [if_neg (not_not.mpr hplace), decide_eq_true hplace, Bool.true_and]
    cases Verifier.increasing (layer.openings.map Merkle.Opening.index) <;> rfl
  · rw [if_pos hplace, decide_eq_false hplace]
    rfl

/-- All layers are checked as by the plain check, if there is a round for each. -/
theorem checkLayers_eq (wf : parameters.WellFormed)
    (word : parameters.codewordLength < wordValues) (first : ℕ) {offset : ℕ}
    (layers : List (LayerProof F))
    (count : first + offset + layers.length ≤ parameters.roundCount) :
    checkLayers parameters first offset layers =
      .ok (Verifier.checkLayers (first + offset) (parameters.rounds.drop (first + offset))
        layers) := by
  induction layers generalizing offset with
  | nil => simp [checkLayers, Verifier.checkLayers]
  | cons layer layers ih =>
      rw [List.length_cons] at count
      have hcount : first + offset < parameters.roundCount := by omega
      have hinside : first + offset < parameters.rounds.length := hcount
      have hrest : checkLayers parameters first (offset + 1) layers =
          .ok (Verifier.checkLayers (first + offset + 1)
            (parameters.rounds.drop (first + offset + 1)) layers) := by
        rw [add_assoc]
        exact ih (by omega)
      rw [checkLayers, add?_eq_ok (hcount.trans (roundCount_lt wf word)), ok_bind,
        List.drop_eq_getElem_cons hinside, Verifier.checkLayers,
        checkLayer_eq wf word (List.getElem?_eq_getElem hinside), ok_bind, hrest]
      cases Verifier.checkLayer (first + offset) parameters.rounds[first + offset] layer <;> rfl

omit [LawfulField F] in
/-- The low bits of a position are its place in a leaf. -/
theorem continues_eq (expected? : Option F) (values : Array F) (round : Round F)
    (size : values.size = round.cosetSize) (position : ℕ) :
    continues expected? values round.cosetSize position =
      Verifier.continues expected? values (position % round.cosetSize) := by
  cases expected? with
  | none => rfl
  | some expected =>
      have hplace : position &&& (round.cosetSize - 1) = position % round.cosetSize := by
        rw [round.cosetSize_eq, Nat.and_two_pow_sub_one_eq_mod]
      have hinside : position % round.cosetSize < values.size := by
        rw [size]
        exact Nat.mod_lt _ round.cosetSize_pos
      have hvalue := Array.getElem?_eq_getElem hinside
      simp only [continues, Verifier.continues, subtract?_eq_ok round.cosetSize_pos, ok_bind,
        hplace, hvalue, demand_some]
      rfl

theorem foldOpened_eq (wf : parameters.WellFormed)
    (word : parameters.codewordLength < wordValues) {place : ℕ} {round : Round F}
    (hround : parameters.rounds[place]? = some round) {leaf : ℕ}
    (fits : leaf * round.cosetSize < wordValues) (challenge : F) (values : Array F) :
    foldOpened parameters place challenge leaf values =
      Verifier.foldOpened round challenge leaf values := by
  obtain ⟨hdomain, hexponent, hdimension⟩ := domain_of_round wf word hround
  rw [round.cosetSize_eq] at fits
  have hbase : cosetBase parameters place leaf = .ok (round.cosetBase leaf) := by
    rw [cosetBase, hround, hdomain, demand_some, ok_bind, demand_some, ok_bind,
      shiftLeft?_eq_ok (hexponent.trans_lt hdimension) fits, ok_bind,
      reverseWord?_eq_ok hdimension.le, ok_bind, Round.cosetBase, round.cosetSize_eq]
    rfl
  rw [foldOpened, hbase, ok_bind, hround, Verifier.foldOpened]
  rfl

omit [FiniteField F] [LawfulField F] in
/-- The leaf of a round is given, or it is found in the layer that is next. -/
theorem readLeaf_eq (proof : Proof F) (given? : Option (Array F)) {round : ℕ}
    (inside : round < proof.layers.length + if given?.isSome then 1 else 0) (leaf : ℕ) :
    Verifier.readLeaf (if round = 0 then given? else none)
        (proof.layers.drop (round - if given?.isSome then 1 else 0)) leaf =
      (readLeaf proof given? round leaf).map fun values? =>
        (values?, proof.layers.drop (round + 1 - if given?.isSome then 1 else 0)) := by
  cases hgiven : if round = 0 then given? else none with
  | some values =>
      obtain ⟨hround, rfl⟩ : round = 0 ∧ given? = some values := by
        by_cases hround : round = 0
        · exact ⟨hround, (if_pos hround).symm.trans hgiven⟩
        · cases (if_neg hround).symm.trans hgiven
      subst hround
      rfl
  | none =>
      obtain ⟨place, rfl⟩ : ∃ place, round = place + if given?.isSome then 1 else 0 := by
        refine ⟨round - if given?.isSome then 1 else 0, ?_⟩
        cases given? with
        | none => rfl
        | some values =>
            have hround : round ≠ 0 := fun hround => nomatch (if_pos hround).symm.trans hgiven
            exact (Nat.sub_add_cancel (Nat.pos_of_ne_zero hround)).symm
      have hplace : place < proof.layers.length := Nat.lt_of_add_lt_add_right inside
      rw [Nat.add_sub_cancel, Nat.add_right_comm, Nat.add_sub_cancel,
        List.drop_eq_getElem_cons hplace, readLeaf, hgiven, subtract?_eq_ok (Nat.le_add_left _ _),
        ok_bind, Nat.add_sub_cancel, List.getElem?_eq_getElem hplace]
      rfl

/-- One round by its number is one round of the lists, if the rounds after it are. -/
theorem followQuery_step (wf : parameters.WellFormed)
    (word : parameters.codewordLength < wordValues) (proof : Proof F) (given? : Option (Array F))
    {place : ℕ} (opened : place < proof.layers.length + if given?.isSome then 1 else 0)
    {round : Round F} (hround : parameters.rounds[place]? = some round) (challenge : F)
    (challenges : List F) (expected? : Option F) {position : ℕ} (fits : position < wordValues)
    (later : ∀ value, followQuery parameters proof given? (place + 1) challenges (some value)
        (position / round.cosetSize) =
      Verifier.followQuery parameters.finalDomain proof.finalPolynomial
        ((parameters.rounds.drop (place + 1)).zip challenges)
        (proof.layers.drop (place + 1 - if given?.isSome then 1 else 0)) none (some value)
        (position / round.cosetSize)) :
    followQuery parameters proof given? place (challenge :: challenges) expected? position =
      Verifier.followQuery parameters.finalDomain proof.finalPolynomial
        ((round, challenge) :: (parameters.rounds.drop (place + 1)).zip challenges)
        (proof.layers.drop (place - if given?.isSome then 1 else 0))
        (if place = 0 then given? else none) expected? position := by
  obtain ⟨-, hexponent, hdimension⟩ := domain_of_round wf word hround
  have hsize := shiftLeft?_exponent (hexponent.trans_lt hdimension)
  have hleaf := shiftRight?_eq_ok (hexponent.trans_lt hdimension) position
  rw [← round.cosetSize_eq] at hleaf
  have hfold : position / round.cosetSize * round.cosetSize < wordValues :=
    (Nat.div_mul_le_self _ _).trans_lt fits
  rw [followQuery, hround, demand_some, ok_bind, hsize, ok_bind, hleaf, ok_bind,
    Verifier.followQuery, readLeaf_eq proof given? opened]
  cases hread : readLeaf proof given? place (position / round.cosetSize) with
  | error cause => rfl
  | ok values? =>
      cases values? with
      | none => rfl
      | some values =>
          simp only [Except.map, ok_bind]
          by_cases hvalues : values.size = round.cosetSize
          · rw [if_neg (not_not.mpr hvalues), if_neg (not_not.mpr hvalues),
              continues_eq expected? values _ hvalues, foldOpened_eq wf word hround hfold]
            rcases Verifier.continues expected? values (position % round.cosetSize) with _ | _ | _
            · rfl
            · rfl
            · rcases Verifier.foldOpened round challenge (position / round.cosetSize) values with
                _ | _ | value
              · rfl
              · rfl
              · exact later value
          · rw [if_pos hvalues, if_pos hvalues]

/-- Following a position by numbers is following it along the lists of rounds and layers. -/
theorem followQuery_eq (wf : parameters.WellFormed)
    (word : parameters.codewordLength < wordValues) (proof : Proof F) (given? : Option (Array F))
    (layers : proof.layers.length + (if given?.isSome then 1 else 0) = parameters.roundCount)
    {place : ℕ} {challenges : List F} (count : place + challenges.length = parameters.roundCount)
    (expected? : Option F) {position : ℕ} (fits : position < wordValues) :
    followQuery parameters proof given? place challenges expected? position =
      Verifier.followQuery parameters.finalDomain proof.finalPolynomial
        ((parameters.rounds.drop place).zip challenges)
        (proof.layers.drop (place - if given?.isSome then 1 else 0))
        (if place = 0 then given? else none) expected? position := by
  induction challenges generalizing place expected? position with
  | nil =>
      rw [followQuery, Parameters.getElem?_domains_roundCount, demand_some, ok_bind,
        reverseWord?_eq_ok (finalDimension_lt wf word).le, ok_bind, List.zip_nil_right,
        Verifier.followQuery]
      rfl
  | cons challenge challenges ih =>
      rw [List.length_cons] at count
      have hcount : place < parameters.roundCount := by omega
      have hinside : place < parameters.rounds.length := hcount
      rw [List.drop_eq_getElem_cons hinside, List.zip_cons_cons]
      refine followQuery_step wf word proof given? (hcount.trans_eq layers.symm)
        (List.getElem?_eq_getElem hinside) challenge challenges expected? fits fun value => ?_
      rw [ih (by omega) (some value) ((Nat.div_le_self _ _).trans_lt fits),
        if_neg (Nat.succ_ne_zero place)]

/-- A query is followed from the leaf that is given for it. -/
theorem checkQuery_eq (wf : parameters.WellFormed)
    (word : parameters.codewordLength < wordValues) (proof : Proof F) {challenges : List F}
    (count : challenges.length = parameters.roundCount) {given? : Option (List (Array F))}
    {leaf? : Option (Array F)} (layers : proof.layers.length +
      (if leaf?.isSome then 1 else 0) = parameters.roundCount)
    {query : ℕ} (hleaf : given?.mapM (fun given => demand given[query]?) = .ok leaf?)
    (position : ℕ) : checkQuery parameters proof challenges given? position query =
      Verifier.checkQuery parameters proof challenges leaf? position := by
  have hdomain : parameters.domains[0]? = some parameters.initialDomain :=
    wf.chain.getElem?_domains_zero
  rw [checkQuery, hdomain, demand_some, ok_bind, hleaf, ok_bind, Verifier.checkQuery]
  by_cases houtside : parameters.codewordLength ≤ position
  · rw [if_pos houtside]
    exact if_pos houtside
  · rw [if_neg houtside, followQuery_eq wf word proof leaf? layers (by rw [zero_add, count]) none
      ((not_le.mp houtside).trans word), Nat.zero_sub, List.drop_zero, List.drop_zero, if_pos rfl]
    exact if_neg houtside

/-- Queries are checked one by one, each with the leaf of its number. -/
theorem allM_checkQuery_eq (wf : parameters.WellFormed)
    (word : parameters.codewordLength < wordValues) (proof : Proof F) {challenges : List F}
    (count : challenges.length = parameters.roundCount) {given? : Option (List (Array F))}
    (layers : proof.layers.length + (if given?.isSome then 1 else 0) = parameters.roundCount)
    {positions : List ℕ} (lengths : ∀ given ∈ given?, given.length = positions.length) :
    Verifier.allM (fun query => checkQuery parameters proof challenges given? query.1 query.2)
        positions.zipIdx =
      given?.elim (Verifier.allM (Verifier.checkQuery parameters proof challenges none) positions)
        fun given => Verifier.allM (fun query =>
          Verifier.checkQuery parameters proof challenges (some query.2) query.1)
          (positions.zip given) := by
  cases given? with
  | none =>
      have hpositions : positions = positions.zipIdx.map Prod.fst :=
        (List.zipIdx_map_fst 0 positions).symm
      conv_rhs => rw [Option.elim_none, hpositions, Verifier.allM_map]
      exact Verifier.allM_congr fun query _ => checkQuery_eq wf word proof count layers rfl query.1
  | some given =>
      have hlength : given.length = positions.length := lengths given rfl
      have hzip : positions.zip given =
          positions.zipIdx.map fun query => (query.1, given.getD query.2 #[]) := by
        apply List.ext_getElem
        · simp [hlength]
        · intro place hleft hright
          have hplace : place < given.length := List.lt_length_right_of_zip hleft
          simp [hplace]
      rw [Option.elim_some, hzip, Verifier.allM_map]
      refine Verifier.allM_congr fun query hmem => ?_
      have hquery : query.2 < given.length := by
        rw [hlength]
        exact List.snd_lt_of_mem_zipIdx hmem
      refine checkQuery_eq wf word proof count layers ?_ query.1
      simp [hquery, List.getD_eq_getElem?_getD]

/-- The guarded checks give the answer of the plain ones, if every leaf that should be given
is. -/
theorem check_eq (wf : parameters.WellFormed) (word : parameters.codewordLength < wordValues)
    (proof : Proof F) (challenges : List F) (positions : List ℕ)
    {given? : Option (List (Array F))}
    (lengths : ∀ given ∈ given?, given.length = positions.length) :
    check parameters proof challenges positions given? =
      Verifier.check parameters proof challenges positions given? := by
  have hfirst : (if given?.isSome then 1 else 0) ≤ parameters.roundCount := by
    have hrounds := wf.roundCount_pos
    split <;> omega
  simp only [check, Verifier.check, subtract?_eq_ok hfirst, ok_bind]
  refine ite_refused_congr fun hcount => ite_refused_congr fun hlayers => ?_
  rw [not_not] at hcount hlayers
  have hplaces : (if given?.isSome then 1 else 0) + 0 + proof.layers.length ≤
      parameters.roundCount := by omega
  have hopened : proof.layers.length + (if given?.isSome then 1 else 0) =
      parameters.roundCount := by omega
  rw [checkLayers_eq wf word _ proof.layers hplaces, add_zero, ok_bind,
    finalDegreeBound?_eq wf word, ok_bind]
  refine ite_refused_congr fun _ => ite_refused_congr fun _ => ?_
  rw [allM_checkQuery_eq wf word proof hcount hopened lengths]
  cases given? <;> rfl

theorem verify_eq (wf : parameters.WellFormed) (word : parameters.codewordLength < wordValues)
    (proof : Proof F) (challenges : List F) (positions : List ℕ) :
    verify parameters proof challenges positions =
      Verifier.verify parameters proof challenges positions := by
  have hlengths : ∀ given ∈ (none : Option (List (Array F))), given.length = positions.length := by
    rintro _ ⟨⟩
  have hcheck := check_eq wf word proof challenges positions hlengths
  rw [verify, Verifier.verify]
  cases parameters.oracle with
  | committed => exact hcheck
  | virtual => rfl

theorem verifyGiven_eq (wf : parameters.WellFormed)
    (word : parameters.codewordLength < wordValues) (proof : Proof F) (challenges : List F)
    (positions : List ℕ) (given : List (Array F)) :
    verifyGiven parameters proof challenges positions given =
      Verifier.verifyGiven parameters proof challenges positions given := by
  rw [verifyGiven, Verifier.verifyGiven]
  cases parameters.oracle with
  | committed => rfl
  | virtual =>
      by_cases hlength : given.length = positions.length
      · have hlengths : ∀ leaves ∈ some given, leaves.length = positions.length := by
          rintro leaves ⟨⟩
          exact hlength
        exact if_congr Iff.rfl rfl (check_eq wf word proof challenges positions hlengths)
      · exact (if_pos hlength).trans (if_pos hlength).symm

end Guarded

namespace Verifier

variable {parameters : Parameters F}

/-- A leaf with the right number of values is folded, or it is refused because its first
point has no inverse. -/
theorem exists_foldOpened {round : Round F} {values : Array F}
    (size : values.size = round.cosetSize) (challenge : F) (leaf : ℕ) :
    ∃ value?, foldOpened round challenge leaf values = .ok value? := by
  rw [round.cosetSize_eq] at size
  rw [foldOpened]
  cases FiniteField.inverse? (round.cosetBase leaf) with
  | none => exact ⟨none, rfl⟩
  | some inverse =>
      simp only [foldCoset?, bitReversed?_of_size size, mapError_ok, ok_bind, Coset.interpolate?]
      by_cases hcount : (reverseOrder round.exponent values).size = round.subgroup.size
      · rw [if_pos hcount]
        exact ⟨_, rfl⟩
      · rw [if_neg hcount]
        exact ⟨none, rfl⟩

theorem exists_continues {round : Round F} {values : Array F}
    (size : values.size = round.cosetSize) (expected? : Option F) (position : ℕ) :
    ∃ found, continues expected? values (position % round.cosetSize) = .ok found := by
  have hinside : position % round.cosetSize < values.size := by
    rw [size]
    exact Nat.mod_lt _ round.cosetSize_pos
  have hvalue := Array.getElem?_eq_getElem hinside
  cases expected? with
  | none => exact ⟨true, rfl⟩
  | some expected =>
      simp only [continues, hvalue]
      exact ⟨_, rfl⟩

/-- A position is followed to the end if there is a layer for every round that reads one. -/
theorem exists_followQuery (last : Coset F) (finalPolynomial : Array F)
    {steps : List (Round F × F)} {layers : List (LayerProof F)} {given? : Option (Array F)}
    (count : steps.length ≤ layers.length + if given?.isSome then 1 else 0)
    (expected? : Option F) (position : ℕ) :
    ∃ verdict, followQuery last finalPolynomial steps layers given? expected? position =
      .ok verdict := by
  induction steps generalizing layers given? expected? position with
  | nil => exact ⟨_, rfl⟩
  | cons step steps ih =>
      obtain ⟨round, challenge⟩ := step
      have hread : ∃ values? rest,
          readLeaf given? layers (position / round.cosetSize) = .ok (values?, rest) ∧
            steps.length ≤ rest.length := by
        rw [List.length_cons] at count
        cases given? with
        | some values => exact ⟨some values, layers, rfl, Nat.le_of_succ_le_succ count⟩
        | none =>
            cases layers with
            | nil => exact absurd count (Nat.not_succ_le_zero _)
            | cons layer rest => exact ⟨_, rest, rfl, Nat.le_of_succ_le_succ count⟩
      obtain ⟨values?, rest, hread, hrest⟩ := hread
      simp only [followQuery, hread, ok_bind]
      cases values? with
      | none => exact ⟨false, rfl⟩
      | some values =>
          refine exists_ite_refused_eq_ok fun hsize => ?_
          rw [not_not] at hsize
          obtain ⟨found, hfound⟩ := exists_continues hsize expected? position
          obtain ⟨value?, hvalue⟩ := exists_foldOpened hsize challenge
            (position / round.cosetSize)
          rw [hfound, ok_bind, hvalue, ok_bind]
          refine exists_ite_refused_eq_ok fun _ => ?_
          cases value? with
          | none => exact ⟨false, rfl⟩
          | some value =>
              have hlayers : steps.length ≤
                  rest.length + if (none : Option (Array F)).isSome then 1 else 0 := hrest
              exact ih hlayers (some value) (position / round.cosetSize)

theorem exists_checkQuery {parameters : Parameters F} {proof : Proof F} {leaf? : Option (Array F)}
    (layers : proof.layers.length = parameters.roundCount - if leaf?.isSome then 1 else 0)
    (challenges : List F) (position : ℕ) :
    ∃ verdict, checkQuery parameters proof challenges leaf? position = .ok verdict := by
  refine exists_ite_refused_eq_ok fun _ => exists_followQuery _ _ ?_ none position
  have hcount : parameters.rounds.length = parameters.roundCount := rfl
  rw [List.length_zip]
  omega

/-- Whatever a proof contains, the checks of it lead to an answer. -/
theorem exists_check (parameters : Parameters F) (proof : Proof F) (challenges : List F)
    (positions : List ℕ) (given? : Option (List (Array F))) :
    ∃ verdict, check parameters proof challenges positions given? = .ok verdict := by
  simp only [check]
  refine exists_ite_refused_eq_ok fun _ => exists_ite_refused_eq_ok fun hlayers =>
    exists_ite_refused_eq_ok fun _ => exists_ite_refused_eq_ok fun _ => ?_
  rw [not_not] at hlayers
  cases given? with
  | none =>
      exact exists_allM_eq_ok fun position _ => exists_checkQuery hlayers challenges position
  | some given =>
      exact exists_allM_eq_ok fun query _ => exists_checkQuery hlayers challenges query.1

theorem exists_verify (parameters : Parameters F) (proof : Proof F) (challenges : List F)
    (positions : List ℕ) :
    ∃ verdict, verify parameters proof challenges positions = .ok verdict := by
  rw [verify]
  cases parameters.oracle with
  | committed => exact exists_check parameters proof challenges positions none
  | virtual => exact ⟨false, rfl⟩

theorem exists_verifyGiven (parameters : Parameters F) (proof : Proof F) (challenges : List F)
    (positions : List ℕ) (given : List (Array F)) :
    ∃ verdict, verifyGiven parameters proof challenges positions given = .ok verdict := by
  rw [verifyGiven]
  cases parameters.oracle with
  | committed => exact ⟨false, rfl⟩
  | virtual =>
      exact exists_ite_refused_eq_ok fun _ =>
        exists_check parameters proof challenges positions (some given)

end Verifier
end Fri
end OracleProofs

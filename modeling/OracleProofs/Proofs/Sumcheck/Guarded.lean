/-
# Checks of the sumcheck on words

The verifier computes the combined words of all repetitions from opened values before it
runs the low-degree test on them, and looks everything up by numbers: positions in the
public words, entries of the opened leaves, slots of opened points, leaves of queries.
Here each of these steps is guarded like those of the low-degree test, and so is every
product of a number of words with the size of a leaf. The values that are known of opened
points stand in one list, leaf after leaf.

The width of a leaf, its number of values, is multiplied out before the openings are compared
with it. A width that is no word breaks the guarded verifier off, and nothing else does: in
all other cases it gives the answer of the plain verifier.
-/

import Mathlib
import OracleProofs.Proofs.Fri.Guarded
import OracleProofs.Proofs.Sumcheck.Verifier

namespace OracleProofs
namespace Sumcheck

variable {F : Type} [FiniteField F]

namespace Guarded

/-- The leaf of the first word that holds a position. -/
def leafOf (parameters : Parameters F) (position : ℕ) : Except Fault ℕ := do
  let round ← demand parameters.fri.rounds[0]?
  shiftRight? position round.exponent

/-- The blocks of neighbours of a list, of a size that must not be zero. -/
def blocks? {α : Type} (size : ℕ) (items : List α) : Except Fault (List (List α)) :=
  if size = 0 then .error .outOfRange
  else .ok ((List.range ((items.length + size - 1) / size)).map fun block =>
    items.extract (block * size) ((block + 1) * size))

/-- What is known of the points at positions of the codeword domain. -/
def pointsAt (parameters : Parameters F) (positions : List ℕ) :
    Except Fault (List (PointFactors F)) := do
  let domain ← demand parameters.fri.domains[0]?
  let room ← subtract? parameters.degreeBound parameters.summation.size
  let exponent ← add? room 1
  positions.mapM fun position => do
    let index ← reverseWord? domain.dimension position
    let x := domain.element index
    return {
      inverse := x⁻¹
      summationPower := power x parameters.summation.size
      vanishing := parameters.vanishing.evaluate x
      degreeShift := power x exponent }

/-- The inner product at a position, which has the given offset in its leaf, over the public
words from the one of the given number on. -/
def innerAt (size position offset : ℕ) (values : Array F) :
    (number : ℕ) → (publicWords : List (Array F)) → Except Fault F
  | _, [] => .ok 0
  | number, word :: rest => do
      let known ← demand word[position]?
      let place ← placeOf? size number offset
      let opened ← demand values[place]?
      let later ← innerAt size position offset values (number + 1) rest
      return known * opened + later

/-- The values of the inner product and of the blinding polynomial at the positions of a
leaf. -/
def openedLeaf (verifier : Verifier F) (size : ℕ) (positions : List ℕ)
    (opening : Merkle.Opening F) : Except Fault (List (F × F)) :=
  positions.zipIdx.mapM fun (position, offset) => do
    let inner ← innerAt size position offset opening.values 0 verifier.publicWords
    let place ← placeOf? size verifier.publicWords.length offset
    let blinding ← demand opening.values[place]?
    return (inner, blinding)

/-- The values of the combined codeword of a repetition on the leaf in a slot. -/
def combinedLeaf (rule : CombinationRule F) (size repetition : ℕ)
    (points : Array (PointFactors F)) (opened : Array (F × F)) (slot : ℕ)
    (opening : Merkle.Opening F) : Except Fault (Array F) := do
  let values ← (List.range size).mapM fun offset => do
    let index ← placeOf? size slot offset
    let (inner, blinding) ← demand opened[index]?
    let place ← placeOf? size repetition offset
    let quotient ← demand opening.values[place]?
    let point ← demand points[index]?
    return rule.evaluate point inner blinding quotient
  return values.toArray

/-- Runs the low-degree test of one repetition. -/
def checkRepetition (verifier : Verifier F) (proof : Proof F) (queries leaves : List ℕ)
    (size : ℕ) (points : Array (PointFactors F)) (opened : Array (F × F)) (repetition : ℕ)
    (challenges : RepetitionChallenges F) (friProof : Fri.Proof F) : Except Fault Bool := do
  let parameters := verifier.parameters
  let rule := CombinationRule.new parameters challenges.batching challenges.combination
    verifier.target proof.firstMessage.blindingSum
  let combined ← proof.quotientOpenings.openings.zipIdx.mapM fun (opening, slot) =>
    combinedLeaf rule size repetition points opened slot opening
  let given ← queries.mapM fun position => do
    let leaf ← leafOf parameters position
    demand combined[leaves.findIdx (leaf ≤ ·)]?
  Fri.Guarded.verifyGiven parameters.fri friProof challenges.folding queries given

/-- The number of values in a leaf of the secret words. -/
def secretWidth? (verifier : Verifier F) (size : ℕ) : Except Fault ℕ := do
  multiply? (← add? verifier.publicWords.length 1) size

/-- Whether the openings are those of the given leaves, in trees of the given depth with
leaves of the given size for each word. The width of the leaves of a tree is multiplied out
once its openings are known to be for the right leaves. -/
def checkOpenings (verifier : Verifier F) (proof : Proof F) (leaves : List ℕ)
    (size depth : ℕ) : Except Fault Bool := do
  if proof.secretOpenings.queries ≠ leaves then return false
  let secretWidth ← secretWidth? verifier size
  if !proof.secretOpenings.verifyAgainst proof.firstMessage.secretRoot secretWidth depth then
    return false
  if proof.quotientOpenings.queries ≠ leaves then return false
  let quotientWidth ← multiply? verifier.parameters.repetitions size
  return proof.quotientOpenings.verifyAgainst proof.quotientRoot quotientWidth depth

/-- Computes what is known at the leaves and runs the low-degree test of every repetition. -/
def checkOpened (verifier : Verifier F) (proof : Proof F) (challenges : Challenges F)
    (queries leaves : List ℕ) (size : ℕ) : Except Fault Bool := do
  let positions ← leaves.mapM fun leaf => (List.range size).mapM (placeOf? size leaf)
  let points ← pointsAt verifier.parameters positions.flatten
  let blocks ← blocks? size positions.flatten
  let opened ← (proof.secretOpenings.openings.zip blocks).mapM fun (opening, block) =>
    openedLeaf verifier size block opening
  Fri.Verifier.allM
    (fun ((challenges, friProof), repetition) =>
      checkRepetition verifier proof queries leaves size points.toArray opened.flatten.toArray
        repetition challenges friProof)
    (challenges.zip proof.friProofs).zipIdx

/-- Checks the openings of the given leaves, and then what the leaves hold. -/
def checkLeaves (verifier : Verifier F) (proof : Proof F) (challenges : Challenges F)
    (queries leaves : List ℕ) (size depth : ℕ) : Except Fault Bool := do
  if !(← checkOpenings verifier proof leaves size depth) then return false
  checkOpened verifier proof challenges queries leaves size

/-- Checks a proof under the given challenges at the given positions. -/
def verify (verifier : Verifier F) (proof : Proof F) (challenges : Challenges F)
    (queries : List ℕ) : Except Fault Bool := do
  let parameters := verifier.parameters
  if challenges.length ≠ parameters.repetitions ||
      proof.friProofs.length ≠ parameters.repetitions then
    return false
  let domain ← demand parameters.fri.domains[0]?
  if queries.any (domain.size ≤ ·) then return false
  let round ← demand parameters.fri.rounds[0]?
  let size ← shiftLeft? 1 round.exponent
  let depth ← subtract? domain.dimension round.exponent
  let leaves ← queries.mapM (leafOf parameters)
  checkLeaves verifier proof challenges queries (sortedDistinct leaves) size depth

section Lists

variable {α : Type}

theorem slot_lt {slot slots size offset : ℕ} (hslot : slot < slots) (hoffset : offset < size) :
    slot * size + offset < slots * size := by
  have hnext := Nat.mul_le_mul_right size (Nat.succ_le_of_lt hslot)
  rw [Nat.succ_mul] at hnext
  omega

/-- Lists of one length, laid one after the other, are read by slot and offset. -/
theorem getElem?_flatten {items : List (List α)} {size : ℕ}
    (sizes : ∀ item ∈ items, item.length = size) {slot : ℕ} {item : List α}
    (hitem : items[slot]? = some item) {offset : ℕ} (inside : offset < size) :
    items.flatten[slot * size + offset]? = item[offset]? := by
  have hblock := Fri.extract_flatMap sizes hitem
  have hwidth : (slot + 1) * size - slot * size = size := by
    rw [Nat.succ_mul, Nat.add_sub_cancel_left]
  rw [List.flatMap_id', List.extract_eq_take_drop, hwidth] at hblock
  rw [← hblock, List.getElem?_take_of_lt inside, List.getElem?_drop]

/-- Cutting them apart gives them back. -/
theorem blocks?_flatten {items : List (List α)} {size : ℕ} (positive : 0 < size)
    (sizes : ∀ item ∈ items, item.length = size) : blocks? size items.flatten = .ok items := by
  have hlength : items.flatten.length = items.length * size := by
    rw [List.length_flatten, List.map_congr_left sizes]
    simp
  have hlast : size - 1 < size := Nat.sub_lt positive one_pos
  have hcount : (items.flatten.length + size - 1) / size = items.length := by
    rw [hlength, Nat.add_sub_assoc positive, add_comm, Nat.add_mul_div_right _ _ positive,
      Nat.div_eq_of_lt hlast, zero_add]
  rw [blocks?, if_neg positive.ne', hcount]
  congr 1
  apply List.ext_getElem
  · simp
  · intro slot hleft hright
    have hblock := Fri.extract_flatMap sizes (List.getElem?_eq_getElem hright)
    rw [List.flatMap_id'] at hblock
    rw [List.getElem_map, List.getElem_range, hblock]

end Lists

variable [LawfulField F] {parameters : Parameters F}

/-- The first round is read with the domain of the words, and both are small. -/
theorem exists_first (wf : parameters.WellFormed)
    (word : parameters.codewordLength < wordValues) :
    ∃ round, parameters.fri.rounds[0]? = some round ∧
      parameters.fri.domains[0]? = some parameters.codewordDomain ∧
      round.exponent ≤ parameters.codewordDomain.dimension ∧
      parameters.codewordDomain.dimension < wordBits ∧
      round.cosetSize = parameters.cosetSize ∧
      parameters.codewordDomain.dimension - round.exponent = parameters.treeDepth := by
  obtain ⟨round, rest, next, hrounds, hdomain, hsize, -, -⟩ := wf.fri.exists_first
  have hround : parameters.fri.rounds[0]? = some round := by
    rw [hrounds, List.getElem?_cons_zero]
  obtain ⟨hword, hexponent, hdimension⟩ := Fri.Guarded.domain_of_round wf.fri word hround
  rw [Parameters.codewordDomain, hdomain]
  refine ⟨round, hround, hword, hexponent, hdimension, hsize.symm, ?_⟩
  rw [Parameters.treeDepth, hrounds]
  rfl

theorem leafOf_eq (wf : parameters.WellFormed) (word : parameters.codewordLength < wordValues)
    (position : ℕ) : leafOf parameters position = .ok (parameters.fri.leafOf 0 position) := by
  obtain ⟨round, hround, -, hexponent, hdimension, hsize, -⟩ := exists_first wf word
  rw [leafOf, hround, demand_some, ok_bind, shiftRight?_eq_ok (hexponent.trans_lt hdimension),
    wf.leafOf_zero, ← hsize, round.cosetSize_eq]

theorem pointsAt_eq (wf : parameters.WellFormed) (word : parameters.codewordLength < wordValues)
    (positions : List ℕ) : pointsAt parameters positions =
      .ok (positions.map (PointFactors.ofPosition parameters)) := by
  obtain ⟨round, -, hdomain, -, hdimension, -, -⟩ := exists_first wf word
  have hexponent : parameters.degreeBound - parameters.summation.size + 1 < wordValues := by
    have hsize := Coset.size_pos parameters.summation
    have hbound : parameters.degreeBound ≤ parameters.codewordLength := wf.fri.degreeBound_le
    have hroom := wf.summation_lt
    omega
  rw [pointsAt, hdomain, demand_some, ok_bind, subtract?_eq_ok wf.summation_lt.le, ok_bind,
    add?_eq_ok hexponent, ok_bind]
  apply mapM_eq_ok
  intro position _
  rw [reverseWord?_eq_ok hdimension.le, ok_bind]
  rfl

omit [FiniteField F] [LawfulField F] in
theorem readEntry_eq_demand {α : Type} (entries : Array α) (place : ℕ) :
    readEntry entries place = demand entries[place]? := rfl

/-- The values that are known at an opened point. -/
def values (point : OpenedPoint F) : F × F := (point.inner, point.blinding)

/-- The positions of a leaf. -/
def block (parameters : Parameters F) (leaf : ℕ) : List ℕ :=
  (List.range parameters.cosetSize).map (leaf * parameters.cosetSize + ·)

/-- The widths of the leaves of both trees are words. -/
structure WidthsFit (verifier : Verifier F) : Prop where
  secret : (verifier.publicWords.length + 1) * verifier.parameters.cosetSize < wordValues
  quotient : verifier.parameters.repetitions * verifier.parameters.cosetSize < wordValues

/-- The positions of leaves are words, as those of the whole word are. -/
theorem mapM_placeOf?_eq (wf : parameters.WellFormed)
    (word : parameters.codewordLength < wordValues) {leaves : List ℕ}
    (inside : ∀ leaf ∈ leaves, leaf < 2 ^ parameters.treeDepth) :
    (leaves.mapM fun leaf =>
        (List.range parameters.cosetSize).mapM (placeOf? parameters.cosetSize leaf)) =
      .ok (leaves.map (block parameters)) := by
  refine mapM_eq_ok fun leaf hmem => mapM_eq_ok fun offset hoffset => ?_
  have hposition := wf.position_lt (inside leaf hmem) (List.mem_range.mp hoffset)
  exact placeOf?_eq_ok (hposition.trans word)

omit [LawfulField F] in
/-- The entry of every word but the last has its place below the width of the leaves. -/
theorem innerAt_eq {size offset : ℕ} (hoffset : offset < size) (position : ℕ)
    (values : Array F) {number : ℕ} {publicWords : List (Array F)}
    (fits : (number + publicWords.length) * size < wordValues) :
    innerAt size position offset values number publicWords =
      Verifier.innerAt size position values (number * size + offset) publicWords := by
  induction publicWords generalizing number with
  | nil => rfl
  | cons word rest ih =>
      rw [List.length_cons] at fits
      have hplace : number * size + offset < wordValues :=
        (slot_lt (by omega) hoffset).trans fits
      have hnext : (number + 1) * size + offset = number * size + offset + size := by
        rw [Nat.succ_mul, Nat.add_right_comm]
      have hrest : innerAt size position offset values (number + 1) rest =
          Verifier.innerAt size position values (number * size + offset + size) rest := by
        rw [← hnext]
        exact ih (by rwa [add_assoc, add_comm 1])
      simp only [innerAt, Verifier.innerAt, placeOf?_eq_ok hplace, ok_bind, hrest,
        readEntry_eq_demand]

omit [LawfulField F] in
/-- The guarded values of a leaf are those that are known of it. -/
theorem openedLeaf_block {verifier : Verifier F} (widths : WidthsFit verifier) (leaf : ℕ)
    (opening : Merkle.Opening F) :
    openedLeaf verifier verifier.parameters.cosetSize (block verifier.parameters leaf) opening =
      (verifier.openedLeaf leaf opening).map (List.map values) := by
  rw [Verifier.openedLeaf, ← mapM_map_answer]
  apply mapM_eq_of_map_eq
  apply List.ext_getElem
  · simp [block]
  · intro offset hleft hright
    have hoffset : offset < verifier.parameters.cosetSize := by simpa using hright
    have hlast := slot_lt (Nat.lt_succ_self verifier.publicWords.length) hoffset
    have hwords : (0 + verifier.publicWords.length) * verifier.parameters.cosetSize <
        wordValues := by
      rw [Nat.zero_add]
      exact (Nat.mul_le_mul_right _ (Nat.le_succ _)).trans_lt widths.secret
    have hinner := innerAt_eq hoffset (leaf * verifier.parameters.cosetSize + offset)
      opening.values hwords
    rw [Nat.zero_mul, Nat.zero_add] at hinner
    simp only [block, List.getElem_map, List.getElem_zipIdx, List.getElem_range, zero_add, hinner,
      placeOf?_eq_ok (hlast.trans widths.secret)]
    cases Verifier.innerAt verifier.parameters.cosetSize
        (leaf * verifier.parameters.cosetSize + offset) opening.values offset
        verifier.publicWords with
    | error cause => rfl
    | ok inner =>
        rw [ok_bind, ok_bind, ok_bind, ← readEntry_eq_demand]
        cases readEntry opening.values
            (verifier.publicWords.length * verifier.parameters.cosetSize + offset) with
        | error cause => rfl
        | ok blinding => rfl

omit [LawfulField F] in
/-- What is known of a leaf includes the factors at its positions. -/
theorem factors_of_openedLeaf {verifier : Verifier F} {leaf : ℕ} {opening : Merkle.Opening F}
    {points : List (OpenedPoint F)} (opened : verifier.openedLeaf leaf opening = .ok points) :
    points.map OpenedPoint.factors =
      (block verifier.parameters leaf).map (PointFactors.ofPosition verifier.parameters) := by
  rw [block, List.map_map]
  apply map_of_mapM_eq_ok opened
  intro offset _ point hpoint
  obtain ⟨inner, -, hpoint⟩ := bind_eq_ok_iff.mp hpoint
  obtain ⟨blinding, -, hpoint⟩ := bind_eq_ok_iff.mp hpoint
  cases hpoint
  rfl

omit [LawfulField F] in
/-- With the points of all leaves in one list, a slot is combined from the points of its
leaf. -/
theorem combinedLeaf_eq (rule : CombinationRule F) {size repetition repetitions : ℕ}
    (inside : repetition < repetitions) (width : repetitions * size < wordValues)
    {opened : List (List (OpenedPoint F))} (sizes : ∀ points ∈ opened, points.length = size)
    (room : opened.length * size < wordValues) {slot : ℕ} {points : List (OpenedPoint F)}
    (hpoints : opened[slot]? = some points) (opening : Merkle.Opening F) :
    combinedLeaf rule size repetition (opened.flatten.map OpenedPoint.factors).toArray
        (opened.flatten.map values).toArray slot opening =
      Verifier.combinedLeaf rule size repetition points opening := by
  have hsize : points.length = size := sizes points (List.mem_of_getElem? hpoints)
  rw [combinedLeaf, Verifier.combinedLeaf]
  refine congrArg (· >>= fun values => pure values.toArray) (mapM_eq_of_map_eq ?_)
  apply List.ext_getElem
  · simp [hsize]
  · intro offset hleft hright
    have hoffset : offset < size := by simpa using hleft
    have hpoint : opened.flatten[slot * size + offset]? = some (points[offset]) := by
      rw [getElem?_flatten sizes hpoints hoffset, List.getElem?_eq_getElem (by rwa [hsize])]
    have hslot : slot < opened.length := (List.getElem?_eq_some_iff.mp hpoints).1
    simp only [List.getElem_map, List.getElem_range, List.getElem_zipIdx, zero_add,
      placeOf?_eq_ok ((slot_lt hslot hoffset).trans room),
      placeOf?_eq_ok ((slot_lt inside hoffset).trans width), List.getElem?_toArray,
      List.getElem?_map, hpoint, Option.map_some, demand_some, ok_bind, readEntry_eq_demand]
    rfl

theorem checkRepetition_eq {verifier : Verifier F} (wf : verifier.parameters.WellFormed)
    (word : verifier.parameters.codewordLength < wordValues) (widths : WidthsFit verifier)
    {proof : Proof F} {opened : List (List (OpenedPoint F))}
    (sizes : ∀ points ∈ opened, points.length = verifier.parameters.cosetSize)
    (room : opened.length * verifier.parameters.cosetSize < wordValues)
    (count : proof.quotientOpenings.openings.length ≤ opened.length) (queries leaves : List ℕ)
    {repetition : ℕ} (inside : repetition < verifier.parameters.repetitions)
    (challenges : RepetitionChallenges F) (friProof : Fri.Proof F) :
    checkRepetition verifier proof queries leaves verifier.parameters.cosetSize
        (opened.flatten.map OpenedPoint.factors).toArray
        (opened.flatten.map values).toArray repetition challenges friProof =
      verifier.checkRepetition proof queries leaves opened.toArray repetition challenges
        friProof := by
  have hcombined (rule : CombinationRule F) :
      (proof.quotientOpenings.openings.zipIdx.mapM fun (opening, slot) =>
        combinedLeaf rule verifier.parameters.cosetSize repetition
          (opened.flatten.map OpenedPoint.factors).toArray
          (opened.flatten.map values).toArray slot opening) =
      (proof.quotientOpenings.openings.zipIdx.mapM fun (opening, slot) => do
        Verifier.combinedLeaf rule verifier.parameters.cosetSize repetition
          (← readEntry opened.toArray slot) opening) := by
    apply mapM_eq_of_map_eq
    apply List.map_congr_left
    rintro ⟨opening, slot⟩ hmem
    rw [List.mk_mem_zipIdx_iff_getElem?] at hmem
    have hslot : slot < opened.length := (List.getElem?_eq_some_iff.mp hmem).1.trans_le count
    have hpoints := List.getElem?_eq_getElem hslot
    have hread : readEntry opened.toArray slot = .ok opened[slot] :=
      readEntry_eq_ok (List.getElem?_toArray.trans hpoints)
    simp only [hread, ok_bind]
    exact combinedLeaf_eq rule inside widths.quotient sizes room hpoints opening
  rw [checkRepetition, Verifier.checkRepetition]
  simp only [hcombined, Verifier.combinedLeaves, bind_assoc, pure_bind, leafOf_eq wf word, ok_bind,
    readEntry_eq_demand, List.getElem?_toArray, Fri.Guarded.verifyGiven_eq wf.fri word]

/-- Accepted openings are as many as the leaves that are asked for, and each of them has the
width of its tree. -/
structure Opens (batch : Merkle.Batch F) (leaves : List ℕ) (width : ℕ) : Prop where
  count : leaves.length = batch.openings.length
  sizes : ∀ opening ∈ batch.openings, opening.values.size = width

omit [LawfulField F] in
theorem opens_of_verifyAgainst {batch : Merkle.Batch F} {root : Merkle.Root} {width depth : ℕ}
    (verified : batch.verifyAgainst root width depth = true) : Opens batch batch.queries width := by
  simp only [Merkle.Batch.verifyAgainst, Bool.and_eq_true, decide_eq_true_eq,
    List.all_eq_true] at verified
  obtain ⟨⟨-, hcount⟩, hverified⟩ := verified
  refine ⟨hcount, fun opening hmem => ?_⟩
  obtain ⟨place, hplace, rfl⟩ := List.mem_iff_getElem.mp hmem
  have hpair : (batch.queries[place], batch.openings[place]) ∈
      batch.queries.zip batch.openings := by
    rw [← List.getElem_zip (h := by rw [List.length_zip]; omega)]
    exact List.getElem_mem _
  exact (Merkle.Root.verify_eq_true_iff.mp (hverified _ hpair).2).2.1

omit [LawfulField F] in
theorem opens_of_checkOpenings {verifier : Verifier F} {proof : Proof F} {leaves : List ℕ}
    (checked : verifier.checkOpenings proof leaves = true) :
    Opens proof.secretOpenings leaves
        ((verifier.publicWords.length + 1) * verifier.parameters.cosetSize) ∧
      Opens proof.quotientOpenings leaves
        (verifier.parameters.repetitions * verifier.parameters.cosetSize) := by
  simp only [Verifier.checkOpenings, Bool.and_eq_true, decide_eq_true_eq] at checked
  obtain ⟨⟨⟨hsecret, hsecretOpens⟩, hquotient⟩, hquotientOpens⟩ := checked
  have hfirst := opens_of_verifyAgainst hsecretOpens
  have hsecond := opens_of_verifyAgainst hquotientOpens
  rw [hsecret] at hfirst
  rw [hquotient] at hsecond
  exact ⟨hfirst, hsecond⟩

omit [LawfulField F] in
/-- The guarded values of all leaves are those that are known of them. -/
theorem opened_eq {verifier : Verifier F} (widths : WidthsFit verifier) {leaves : List ℕ}
    {openings : List (Merkle.Opening F)} :
    ((openings.zip (leaves.map (block verifier.parameters))).mapM fun (opening, block) =>
        openedLeaf verifier verifier.parameters.cosetSize block opening) =
      ((leaves.zip openings).mapM fun (leaf, opening) => verifier.openedLeaf leaf opening).map
        (List.map (List.map values)) := by
  rw [← mapM_map_answer]
  apply mapM_eq_of_map_eq
  apply List.ext_getElem
  · simp [min_comm]
  · intro slot hleft hright
    simp only [List.getElem_map, List.getElem_zip]
    exact openedLeaf_block widths _ _

omit [LawfulField F] in
/-- What is known of all leaves includes the factors at their positions, leaf after leaf. -/
theorem factors_of_opened {verifier : Verifier F} {leaves : List ℕ}
    {openings : List (Merkle.Opening F)} (count : leaves.length = openings.length)
    {opened : List (List (OpenedPoint F))}
    (known : ((leaves.zip openings).mapM fun (leaf, opening) =>
      verifier.openedLeaf leaf opening) = .ok opened) :
    opened.map (List.map OpenedPoint.factors) =
      leaves.map fun leaf =>
        (block verifier.parameters leaf).map (PointFactors.ofPosition verifier.parameters) := by
  have hfactors : opened.map (List.map OpenedPoint.factors) = (leaves.zip openings).map fun item =>
      (block verifier.parameters item.1).map (PointFactors.ofPosition verifier.parameters) :=
    map_of_mapM_eq_ok known fun item _ points hpoints => factors_of_openedLeaf hpoints
  have hleaves : leaves = (leaves.zip openings).map Prod.fst :=
    (List.map_fst_zip count.le).symm
  conv_rhs => rw [hleaves, List.map_map]
  exact hfactors

omit [LawfulField F] in
theorem sizes_of_opened {verifier : Verifier F} {leaves : List ℕ}
    {openings : List (Merkle.Opening F)} (count : leaves.length = openings.length)
    {opened : List (List (OpenedPoint F))}
    (known : ((leaves.zip openings).mapM fun (leaf, opening) =>
      verifier.openedLeaf leaf opening) = .ok opened) :
    opened.length = leaves.length ∧
      ∀ points ∈ opened, points.length = verifier.parameters.cosetSize := by
  have hfactors := factors_of_opened count known
  refine ⟨by simpa using congrArg List.length hfactors, fun points hmem => ?_⟩
  obtain ⟨leaf, -, hleaf⟩ := List.mem_map.mp
    (hfactors ▸ List.mem_map_of_mem (f := List.map OpenedPoint.factors) hmem)
  simpa [block] using (congrArg List.length hleaf).symm

/-- Once the openings are accepted, the points that are opened are known leaf after leaf. -/
theorem checkOpened_eq {verifier : Verifier F} (wf : verifier.parameters.WellFormed)
    (word : verifier.parameters.codewordLength < wordValues) (widths : WidthsFit verifier)
    {proof : Proof F} {queries : List ℕ}
    (inside : ∀ position ∈ queries, position < verifier.parameters.codewordLength)
    (checked : verifier.checkOpenings proof (verifier.parameters.fri.leavesOf 0 queries) = true)
    {challenges : Challenges F} (count : challenges.length ≤ verifier.parameters.repetitions) :
    checkOpened verifier proof challenges queries (verifier.parameters.fri.leavesOf 0 queries)
        verifier.parameters.cosetSize = (do
      let opened ← ((verifier.parameters.fri.leavesOf 0 queries).zip
          proof.secretOpenings.openings).mapM fun (leaf, opening) =>
        verifier.openedLeaf leaf opening
      Fri.Verifier.allM
        (fun ((challenges, friProof), repetition) =>
          verifier.checkRepetition proof queries (verifier.parameters.fri.leavesOf 0 queries)
            opened.toArray repetition challenges friProof)
        (challenges.zip proof.friProofs).zipIdx) := by
  obtain ⟨hsecret, hquotient⟩ := opens_of_checkOpenings checked
  have hroom := (Nat.mul_le_mul_right verifier.parameters.cosetSize
    (wf.length_leavesOf_le inside)).trans_eq wf.leaves_mul
  have hpositions := mapM_placeOf?_eq wf word fun _ => wf.leaf_lt inside
  generalize verifier.parameters.fri.leavesOf 0 queries = leaves at *
  have hsizes : ∀ positions ∈ leaves.map (block verifier.parameters),
      positions.length = verifier.parameters.cosetSize := by
    intro positions hmem
    obtain ⟨leaf, -, rfl⟩ := List.mem_map.mp hmem
    simp [block]
  simp only [checkOpened, hpositions, pointsAt_eq wf word,
    blocks?_flatten wf.cosetSize_pos hsizes, ok_bind]
  rw [opened_eq widths]
  cases hknown : (leaves.zip proof.secretOpenings.openings).mapM fun (leaf, opening) =>
      verifier.openedLeaf leaf opening with
  | error cause => rfl
  | ok opened =>
      have hfactors := factors_of_opened hsecret.count hknown
      obtain ⟨hcount, hpoints⟩ := sizes_of_opened hsecret.count hknown
      have hflat : (leaves.map (block verifier.parameters)).flatten.map
          (PointFactors.ofPosition verifier.parameters) =
          opened.flatten.map OpenedPoint.factors := by
        rw [List.map_flatten, List.map_flatten, hfactors, List.map_map]
        rfl
      have hvalues : (opened.map (List.map values)).flatten = opened.flatten.map values :=
        List.map_flatten.symm
      rw [← hcount] at hroom
      simp only [Except.map, ok_bind, hflat, hvalues]
      apply Fri.Verifier.allM_congr
      rintro ⟨⟨own, friProof⟩, repetition⟩ hmem
      have hrepetition : repetition < verifier.parameters.repetitions := by
        refine (List.snd_lt_of_mem_zipIdx hmem).trans_le ?_
        rw [List.length_zip]
        exact (Nat.min_le_left _ _).trans count
      exact checkRepetition_eq wf word widths hpoints (hroom.trans_lt word)
        (hquotient.count.symm.trans hcount.symm).le queries leaves hrepetition own friProof

omit [LawfulField F] in
/-- One more than the number of public words is a word if the width is. -/
theorem secretWidth?_eq (verifier : Verifier F) {size : ℕ} (positive : 0 < size) :
    secretWidth? verifier size = multiply? (verifier.publicWords.length + 1) size := by
  rw [secretWidth?]
  by_cases hwords : verifier.publicWords.length + 1 < wordValues
  · rw [add?_eq_ok hwords, ok_bind]
  · have hlarge : wordValues ≤ (verifier.publicWords.length + 1) * size :=
      (not_lt.mp hwords).trans (Nat.le_mul_of_pos_right _ positive)
    rw [add?, if_neg hwords, multiply?_eq_error hlarge]
    rfl

/-- The checks of the openings of the given leaves reach a width that is no word: that of the
secret words, or, if the secret openings are verified and the quotients are opened at the same
leaves, that of the quotients. -/
structure Overflows (verifier : Verifier F) (proof : Proof F) (leaves : List ℕ) : Prop where
  asked : proof.secretOpenings.queries = leaves
  large : wordValues ≤ (verifier.publicWords.length + 1) * verifier.parameters.cosetSize ∨
    proof.secretOpenings.verifyAgainst proof.firstMessage.secretRoot
        ((verifier.publicWords.length + 1) * verifier.parameters.cosetSize)
        verifier.parameters.treeDepth = true ∧
      proof.quotientOpenings.queries = leaves ∧
      wordValues ≤ verifier.parameters.repetitions * verifier.parameters.cosetSize

theorem checkOpenings_eq_error {verifier : Verifier F} (wf : verifier.parameters.WellFormed)
    {proof : Proof F} {leaves : List ℕ} (overflows : Overflows verifier proof leaves) :
    checkOpenings verifier proof leaves verifier.parameters.cosetSize
      verifier.parameters.treeDepth = .error .overflow := by
  obtain ⟨hasked, hlarge⟩ := overflows
  rw [checkOpenings, if_neg (not_not.mpr hasked), secretWidth?_eq verifier wf.cosetSize_pos]
  by_cases hsecret : (verifier.publicWords.length + 1) * verifier.parameters.cosetSize < wordValues
  · obtain ⟨hverified, hquotients, hquotient⟩ := hlarge.resolve_left (not_le.mpr hsecret)
    rw [multiply?_eq_ok hsecret, ok_bind, hverified, Bool.not_true, if_neg Bool.false_ne_true,
      if_neg (not_not.mpr hquotients), multiply?_eq_error hquotient]
    rfl
  · rw [multiply?_eq_error (not_lt.mp hsecret)]
    rfl

/-- Where no width overflows, the openings are checked as by the plain verifier. -/
theorem checkOpenings_eq_ok {verifier : Verifier F} (wf : verifier.parameters.WellFormed)
    {proof : Proof F} {leaves : List ℕ} (fits : ¬Overflows verifier proof leaves) :
    checkOpenings verifier proof leaves verifier.parameters.cosetSize
      verifier.parameters.treeDepth = .ok (verifier.checkOpenings proof leaves) := by
  rw [checkOpenings, Verifier.checkOpenings]
  by_cases hasked : proof.secretOpenings.queries = leaves
  · have hsecret := not_le.mp fun hlarge => fits ⟨hasked, .inl hlarge⟩
    rw [if_neg (not_not.mpr hasked), secretWidth?_eq verifier wf.cosetSize_pos,
      multiply?_eq_ok hsecret, ok_bind, decide_eq_true hasked, Bool.true_and]
    cases hverified : proof.secretOpenings.verifyAgainst proof.firstMessage.secretRoot
        ((verifier.publicWords.length + 1) * verifier.parameters.cosetSize)
        verifier.parameters.treeDepth with
    | false => rfl
    | true =>
        rw [Bool.not_true, if_neg Bool.false_ne_true, Bool.true_and]
        by_cases hquotients : proof.quotientOpenings.queries = leaves
        · have hquotient := not_le.mp fun hlarge =>
            fits ⟨hasked, .inr ⟨hverified, hquotients, hlarge⟩⟩
          rw [if_neg (not_not.mpr hquotients), multiply?_eq_ok hquotient, ok_bind,
            decide_eq_true hquotients, Bool.true_and]
          rfl
        · rw [if_pos hquotients, decide_eq_false hquotients, Bool.false_and]
          rfl
  · rw [if_pos hasked, decide_eq_false hasked, Bool.false_and, Bool.false_and, Bool.false_and]
    rfl

omit [LawfulField F] in
/-- Openings that are accepted without an overflow have widths that are words. -/
theorem widthsFit_of_checkOpenings {verifier : Verifier F} {proof : Proof F} {leaves : List ℕ}
    (fits : ¬Overflows verifier proof leaves)
    (checked : verifier.checkOpenings proof leaves = true) : WidthsFit verifier := by
  simp only [Verifier.checkOpenings, Bool.and_eq_true, decide_eq_true_eq] at checked
  obtain ⟨⟨⟨hasked, hverified⟩, hquotients⟩, -⟩ := checked
  exact
    { secret := not_le.mp fun hlarge => fits ⟨hasked, .inl hlarge⟩
      quotient := not_le.mp fun hlarge =>
        fits ⟨hasked, .inr ⟨hverified, hquotients, hlarge⟩⟩ }

/-- What leads the verifier to a width that is no word: as many challenges and proofs as
repetitions, queries inside the words, and openings whose widths overflow. -/
structure BreaksOff (verifier : Verifier F) (proof : Proof F) (challenges : Challenges F)
    (queries : List ℕ) : Prop where
  challenges : challenges.length = verifier.parameters.repetitions
  friProofs : proof.friProofs.length = verifier.parameters.repetitions
  inside : ∀ position ∈ queries, position < verifier.parameters.codewordLength
  overflows : Overflows verifier proof (verifier.parameters.fri.leavesOf 0 queries)

omit [LawfulField F] in
theorem BreaksOff.not_widthsFit {verifier : Verifier F} {proof : Proof F}
    {challenges : Challenges F} {queries : List ℕ}
    (breaks : BreaksOff verifier proof challenges queries) : ¬WidthsFit verifier := by
  intro widths
  rcases breaks.overflows.large with hsecret | ⟨-, -, hquotient⟩
  · exact hsecret.not_gt widths.secret
  · exact hquotient.not_gt widths.quotient

/-- A proof without openings, with as many proofs of the low-degree test as are needed. -/
def unopened (verifier : Verifier F) : Proof F where
  firstMessage := ⟨default, 0⟩
  quotientRoot := default
  secretOpenings := ⟨default, 1, 1, [], []⟩
  quotientOpenings := ⟨default, 1, 1, [], []⟩
  friProofs := List.replicate verifier.parameters.repetitions ⟨[], #[]⟩

/-- Challenges that are all zero. -/
def zeros (verifier : Verifier F) : Challenges F :=
  List.replicate verifier.parameters.repetitions ⟨0, ⟨0, 0, 0, 0⟩, [0]⟩

omit [LawfulField F] in
/-- Openings of no leaves are verified, so every width is multiplied out. -/
theorem breaksOff_unopened {verifier : Verifier F} (large : ¬WidthsFit verifier) :
    BreaksOff verifier (unopened verifier) (zeros verifier) [] where
  challenges := List.length_replicate
  friProofs := List.length_replicate
  inside := by simp
  overflows := by
    refine ⟨rfl, ?_⟩
    by_cases hsecret : wordValues ≤
        (verifier.publicWords.length + 1) * verifier.parameters.cosetSize
    · exact .inl hsecret
    · refine .inr ⟨by simp [Merkle.Batch.verifyAgainst, unopened], rfl, ?_⟩
      by_contra hquotient
      exact large ⟨not_le.mp hsecret, not_le.mp hquotient⟩

/-- Up to the openings nothing can break off. -/
theorem verify_eq_checkLeaves {verifier : Verifier F} (wf : verifier.parameters.WellFormed)
    (word : verifier.parameters.codewordLength < wordValues) (proof : Proof F)
    (challenges : Challenges F) (queries : List ℕ) :
    verify verifier proof challenges queries =
      if challenges.length ≠ verifier.parameters.repetitions ||
          proof.friProofs.length ≠ verifier.parameters.repetitions then .ok false
      else if queries.any (verifier.parameters.codewordLength ≤ ·) then .ok false
      else checkLeaves verifier proof challenges queries
        (verifier.parameters.fri.leavesOf 0 queries) verifier.parameters.cosetSize
        verifier.parameters.treeDepth := by
  obtain ⟨round, hround, hdomain, hexponent, hdimension, hsize, hdepth⟩ := exists_first wf word
  have hshift : shiftLeft? 1 round.exponent = .ok verifier.parameters.cosetSize := by
    rw [Fri.Guarded.shiftLeft?_exponent (hexponent.trans_lt hdimension), hsize]
  have hleaves : queries.mapM (leafOf verifier.parameters) =
      .ok (queries.map (verifier.parameters.fri.leafOf 0)) :=
    mapM_eq_ok fun position _ => leafOf_eq wf word position
  simp only [verify, hdomain, demand_some, ok_bind, hround, hshift, subtract?_eq_ok hexponent,
    hdepth, hleaves]
  rfl

theorem verify_eq_error {verifier : Verifier F} (wf : verifier.parameters.WellFormed)
    (word : verifier.parameters.codewordLength < wordValues) {proof : Proof F}
    {challenges : Challenges F} {queries : List ℕ}
    (breaks : BreaksOff verifier proof challenges queries) :
    verify verifier proof challenges queries = .error .overflow := by
  have hcounts : ¬(challenges.length ≠ verifier.parameters.repetitions ||
      proof.friProofs.length ≠ verifier.parameters.repetitions) = true := by
    simp [breaks.challenges, breaks.friProofs]
  have hinside : ¬queries.any (verifier.parameters.codewordLength ≤ ·) = true := by
    simpa using breaks.inside
  rw [verify_eq_checkLeaves wf word, if_neg hcounts, if_neg hinside, checkLeaves,
    checkOpenings_eq_error wf breaks.overflows]
  rfl

/-- The guarded verifier gives the answer of the plain one, unless a width overflows. -/
theorem verify_eq {verifier : Verifier F} (wf : verifier.parameters.WellFormed)
    (word : verifier.parameters.codewordLength < wordValues) {proof : Proof F}
    {challenges : Challenges F} {queries : List ℕ}
    (answers : ¬BreaksOff verifier proof challenges queries) :
    verify verifier proof challenges queries = verifier.verify proof challenges queries := by
  rw [verify_eq_checkLeaves wf word, Verifier.verify]
  refine ite_refused_congr fun hcounts => ite_refused_congr fun houtside => ?_
  simp only [Bool.or_eq_true, decide_eq_true_eq, not_or, not_not] at hcounts
  have hinside : ∀ position ∈ queries, position < verifier.parameters.codewordLength := by
    simpa using houtside
  have hfits : ¬Overflows verifier proof (verifier.parameters.fri.leavesOf 0 queries) :=
    fun hoverflows => answers ⟨hcounts.1, hcounts.2, hinside, hoverflows⟩
  rw [checkLeaves, checkOpenings_eq_ok wf hfits, ok_bind]
  refine ite_refused_congr fun hchecked => ?_
  rw [Bool.not_eq_true', Bool.not_eq_false] at hchecked
  exact checkOpened_eq wf word (widthsFit_of_checkOpenings hfits hchecked) hinside hchecked
    hcounts.1.le

theorem verify_eq_error_iff {verifier : Verifier F} (wf : verifier.parameters.WellFormed)
    (word : verifier.parameters.codewordLength < wordValues) {proof : Proof F}
    {challenges : Challenges F} {queries : List ℕ} {verdict : Bool}
    (answered : verifier.verify proof challenges queries = .ok verdict) {cause : Fault} :
    verify verifier proof challenges queries = .error cause ↔
      cause = .overflow ∧ BreaksOff verifier proof challenges queries := by
  constructor
  · intro hcause
    by_cases hbreaks : BreaksOff verifier proof challenges queries
    · cases hcause.symm.trans (verify_eq_error wf word hbreaks)
      exact ⟨rfl, hbreaks⟩
    · cases hcause.symm.trans ((verify_eq wf word hbreaks).trans answered)
  · rintro ⟨rfl, hbreaks⟩
    exact verify_eq_error wf word hbreaks

end Guarded

end Sumcheck
end OracleProofs

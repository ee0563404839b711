/-
# The honest run of the prover

Starting from the word of a polynomial, the prover folds the polynomial: after
any number of challenges its layers are the words of the polynomial folded so
far, each committed by its leaves, and after the last one the final polynomial
is the one that is left. A step of the run never fails, so a run is described by
the state that it reaches.
-/

import Mathlib
import OracleProofs.Fri.Prover
import OracleProofs.Proofs.Fri.Fold
import OracleProofs.Proofs.Merkle.Tree

namespace OracleProofs
namespace Fri

open Polynomial

variable {F : Type} [FiniteField F] [LawfulField F]

section Polynomials

/-- The polynomial that is left after folding by challenges, one for each round. -/
noncomputable def foldedBy : List (Round F) → List F → F[X] → F[X]
  | round :: rounds, challenge :: challenges, p =>
      foldedBy rounds challenges (foldSlices round.cosetSize challenge p)
  | _, _, p => p

@[simp]
theorem foldedBy_nil (rounds : List (Round F)) (p : F[X]) : foldedBy rounds [] p = p := by
  cases rounds <;> rfl

theorem foldedBy_append {rounds : List (Round F)} {done : List F} {round : Round F}
    (hround : rounds[done.length]? = some round) (challenge : F) (p : F[X]) :
    foldedBy rounds (done ++ [challenge]) p =
      foldSlices round.cosetSize challenge (foldedBy rounds done p) := by
  induction done generalizing rounds p with
  | nil =>
      cases rounds with
      | nil => cases hround
      | cons first rest =>
          cases hround
          rw [List.nil_append, foldedBy, foldedBy_nil, foldedBy_nil]
  | cons first done ih =>
      cases rounds with
      | nil => cases hround
      | cons _ rest => exact ih hround _

/-- The folded polynomial fits the domain of its round. -/
theorem Chain.degree_foldedBy_lt {first last : Coset F} {rounds : List (Round F)}
    (chain : Chain first rounds last) {done : List F} {domain : Coset F}
    (hdomain : (rounds.map Round.domain ++ [last])[done.length]? = some domain) {p : F[X]}
    (hdegree : p.degree < first.size) : (foldedBy rounds done p).degree < domain.size := by
  induction chain generalizing done p with
  | nil last =>
      cases done with
      | nil =>
          cases hdomain
          exact hdegree
      | cons _ _ => cases hdomain
  | cons folds rest ih =>
      cases done with
      | nil =>
          cases hdomain
          exact hdegree
      | cons challenge done => exact ih hdomain (folds.degree_foldSlices_lt challenge hdegree)

theorem Chain.degree_foldedBy_lt_last {first last : Coset F} {rounds : List (Round F)}
    (chain : Chain first rounds last) {challenges : List F}
    (count : challenges.length = rounds.length) {p : F[X]} (hdegree : p.degree < first.size) :
    (foldedBy rounds challenges p).degree < last.size := by
  apply chain.degree_foldedBy_lt _ hdegree
  rw [List.getElem?_append_right (by rw [List.length_map, count]), List.length_map, count,
    Nat.sub_self, List.getElem?_cons_zero]

/-- All rounds together divide a degree bound by the product of their factors. -/
theorem degree_foldedBy_lt_of_mul {rounds : List (Round F)} {challenges : List F}
    (count : challenges.length = rounds.length) {p : F[X]} {bound : ℕ}
    (hdegree : p.degree < (bound * 2 ^ (rounds.map Round.exponent).sum : ℕ)) :
    (foldedBy rounds challenges p).degree < bound := by
  induction rounds generalizing challenges p with
  | nil => simpa [foldedBy] using hdegree
  | cons round rounds ih =>
      cases challenges with
      | nil => cases count
      | cons challenge challenges =>
          apply ih (Nat.succ.inj count)
          apply degree_foldSlices_lt round.cosetSize_pos
          rwa [round.cosetSize_eq, mul_assoc, ← pow_add, add_comm, ← List.sum_cons,
            ← List.map_cons]

end Polynomials

section Layers

namespace Round

/-- The tree over the leaves of the word of a polynomial. -/
noncomputable def treeOf (round : Round F) (p : F[X]) : Merkle.Tree F :=
  .ofLeaves round.treeDepth (round.blocks (round.domain.wordOf p))

/-- The layer of a polynomial. The first layer has no tree if its word is virtual. -/
noncomputable def layerOf (round : Round F) (oracle : InitialOracle) (p : F[X]) : Layer F where
  codeword := round.domain.wordOf p
  tree? := match oracle with
    | .committed => some (round.treeOf p)
    | .virtual => none

variable {round : Round F} {next : Coset F}

theorem FoldsTo.treeDepth_eq (folds : round.FoldsTo next) : round.treeDepth = next.dimension := by
  rw [treeDepth, ← folds.split, Nat.add_sub_cancel_left]

theorem FoldsTo.blocks_wordOf (folds : round.FoldsTo next) (p : F[X]) :
    round.blocks (round.domain.wordOf p) = Array.ofFn fun leaf : Fin next.size =>
      (round.domain.wordOf p).extract (leaf * round.cosetSize) ((leaf + 1) * round.cosetSize) :=
  blocksOf_eq_ofFn round.cosetSize_pos (folds.size_wordOf p)

theorem FoldsTo.size_blocks (folds : round.FoldsTo next) (p : F[X]) :
    (round.blocks (round.domain.wordOf p)).size = 2 ^ round.treeDepth := by
  rw [blocks, size_blocksOf round.cosetSize_pos (folds.size_wordOf p), next.size_eq,
    folds.treeDepth_eq]

theorem FoldsTo.size_of_mem_blocks (folds : round.FoldsTo next) (p : F[X]) {leaf : Array F}
    (hmem : leaf ∈ round.blocks (round.domain.wordOf p)) : leaf.size = round.cosetSize :=
  size_of_mem_blocksOf round.cosetSize_pos (folds.size_wordOf p) hmem

theorem FoldsTo.commit?_wordOf (folds : round.FoldsTo next) (p : F[X]) :
    round.commit? (round.domain.wordOf p) = .ok (round.treeOf p) :=
  Merkle.Tree.ofLeaves?_eq_ok (folds.size_blocks p) round.cosetSize_pos
    fun _ hmem => folds.size_of_mem_blocks p hmem

theorem FoldsTo.wellFormed_treeOf (folds : round.FoldsTo next) (p : F[X]) :
    (round.treeOf p).WellFormed round.cosetSize :=
  Merkle.Tree.wellFormed_ofLeaves (folds.size_blocks p)
    fun _ hmem => folds.size_of_mem_blocks p hmem

end Round

/-- The layers after folding by challenges: the words of all polynomials on the
way, as long as there are rounds for them. Only the first may be virtual. -/
noncomputable def layersAfter : InitialOracle → List (Round F) → List F → F[X] → List (Layer F)
  | oracle, round :: _, [], p => [round.layerOf oracle p]
  | oracle, round :: rounds, challenge :: challenges, p =>
      round.layerOf oracle p ::
        layersAfter .committed rounds challenges (foldSlices round.cosetSize challenge p)
  | _, [], _, _ => []

theorem length_layersAfter (oracle : InitialOracle) (rounds : List (Round F)) (done : List F)
    (p : F[X]) :
    (layersAfter oracle rounds done p).length = min (done.length + 1) rounds.length := by
  induction done generalizing oracle rounds p with
  | nil => cases rounds <;> simp [layersAfter]
  | cons challenge done ih =>
      cases rounds with
      | nil => simp [layersAfter]
      | cons _ rounds =>
          rw [layersAfter, List.length_cons, ih, List.length_cons, List.length_cons,
            Nat.add_min_add_right]

/-- A layer holds the word of the polynomial folded by the challenges before it. -/
theorem getElem?_layersAfter (oracle : InitialOracle) {rounds : List (Round F)} {done : List F}
    {place : ℕ} {round : Round F} (hround : rounds[place]? = some round)
    (folded : place ≤ done.length) (p : F[X]) :
    ∃ tree?, (layersAfter oracle rounds done p)[place]? =
      some ⟨round.domain.wordOf (foldedBy rounds (done.take place) p), tree?⟩ := by
  induction place generalizing oracle rounds done p with
  | zero =>
      cases rounds with
      | nil => cases hround
      | cons _ _ =>
          cases hround
          cases done <;> exact ⟨_, rfl⟩
  | succ place ih =>
      cases rounds with
      | nil => cases hround
      | cons _ rounds =>
          cases done with
          | nil => cases folded
          | cons challenge done => exact ih .committed hround (Nat.le_of_succ_le_succ folded) _

theorem layersAfter_append {oracle : InitialOracle} {rounds : List (Round F)} {done : List F}
    {next : Round F} (hnext : rounds[done.length + 1]? = some next) (challenge : F) (p : F[X]) :
    layersAfter oracle rounds (done ++ [challenge]) p =
      layersAfter oracle rounds done p ++
        [next.layerOf .committed (foldedBy rounds (done ++ [challenge]) p)] := by
  induction done generalizing oracle rounds p with
  | nil =>
      cases rounds with
      | nil => cases hnext
      | cons first rest =>
          cases rest with
          | nil => cases hnext
          | cons _ _ =>
              cases hnext
              rfl
  | cons _ done ih =>
      cases rounds with
      | nil => cases hnext
      | cons first rounds => exact congrArg (_ :: ·) (ih hnext _)

theorem layersAfter_append_last {oracle : InitialOracle} {rounds : List (Round F)} {done : List F}
    (last : done.length + 1 = rounds.length) (challenge : F) (p : F[X]) :
    layersAfter oracle rounds (done ++ [challenge]) p = layersAfter oracle rounds done p := by
  induction done generalizing oracle rounds p with
  | nil =>
      cases rounds with
      | nil => cases last
      | cons first rest =>
          have hrest : rest = [] := List.length_eq_zero_iff.mp (Nat.succ.inj last).symm
          rw [hrest]
          rfl
  | cons _ done ih =>
      cases rounds with
      | nil => cases last
      | cons first rounds => exact congrArg (_ :: ·) (ih (Nat.succ.inj last) _)

end Layers

namespace Prover

/-- The coefficients that are sent for the polynomial that is left at the end. -/
noncomputable def finalCoefficients (parameters : Parameters F) (p : F[X]) : Array F :=
  trimZeros (parameters.finalDomain.interpolate (parameters.finalDomain.valuesOf p))

theorem polynomialOf_finalCoefficients (parameters : Parameters F) {p : F[X]}
    (hdegree : p.degree < parameters.finalDomain.size) :
    polynomialOf (finalCoefficients parameters p) = p := by
  rw [finalCoefficients, polynomialOf_trimZeros, Coset.interpolate_valuesOf _ hdegree]

/-- The number of coefficients that are sent is exact. -/
theorem size_finalCoefficients_le_iff (parameters : Parameters F) {p : F[X]}
    (hdegree : p.degree < parameters.finalDomain.size) {bound : ℕ} :
    (finalCoefficients parameters p).size ≤ bound ↔ p.degree < bound := by
  let final : DensePoly F := ⟨finalCoefficients parameters p, back?_trimZeros _⟩
  have hfinal : final.toPolynomial = p := polynomialOf_finalCoefficients parameters hdegree
  show final.length ≤ bound ↔ p.degree < bound
  rw [DensePoly.length_le_iff, hfinal]

/-- The final polynomial of a prover has the coefficients of any other list for the same
polynomial, without the zeros at the end. -/
theorem finalCoefficients_polynomialOf (parameters : Parameters F) {coefficients : Array F}
    (short : coefficients.size ≤ parameters.finalDomain.size) :
    finalCoefficients parameters (polynomialOf coefficients) = trimZeros coefficients := by
  have hdegree : (polynomialOf coefficients).degree < parameters.finalDomain.size :=
    (degree_polynomialOf_lt _).trans_le (by exact_mod_cast short)
  let sent : DensePoly F := ⟨finalCoefficients parameters (polynomialOf coefficients),
    back?_trimZeros _⟩
  let trimmed : DensePoly F := ⟨trimZeros coefficients, back?_trimZeros _⟩
  have hequal : sent.toPolynomial = trimmed.toPolynomial :=
    (polynomialOf_finalCoefficients parameters hdegree).trans (polynomialOf_trimZeros _).symm
  exact congrArg DensePoly.coefficients (DensePoly.toPolynomial_injective hequal)

/-- The state after folding by challenges, for the word of a polynomial. -/
noncomputable def after (parameters : Parameters F) (p : F[X]) (done : List F) : Prover F where
  parameters
  layers := (layersAfter parameters.oracle parameters.rounds done p).toArray
  finalPolynomial? :=
    if done.length = parameters.roundCount then
      some (finalCoefficients parameters (foldedBy parameters.rounds done p))
    else none

variable {parameters : Parameters F}

/-- A prover for the word of a polynomial starts with nothing folded. -/
theorem ofBitReversed?_wordOf (wf : parameters.WellFormed) (p : F[X]) :
    ofBitReversed? parameters (parameters.initialDomain.wordOf p) =
      .ok (after parameters p []) := by
  have hsize : (parameters.initialDomain.wordOf p).size = parameters.codewordLength :=
    Coset.size_wordOf _ _
  have hlayer : ∃ tree?, commitInitial? parameters (parameters.initialDomain.wordOf p) =
        .ok tree? ∧ layersAfter parameters.oracle parameters.rounds [] p =
          [⟨parameters.initialDomain.wordOf p, tree?⟩] := by
    obtain ⟨rounds, finalDomain, degreeBound, oracle⟩ := parameters
    cases rounds with
    | nil => exact absurd rfl wf.rounds_ne_nil
    | cons round rest =>
        obtain ⟨next, -, hfolds, -⟩ := wf.chain.exists_next
        cases oracle with
        | committed =>
            refine ⟨some (round.treeOf p), ?_, rfl⟩
            show ((round.commit? (round.domain.wordOf p)).map some).mapError _ = _
            rw [hfolds.commit?_wordOf]
            rfl
        | virtual => exact ⟨none, rfl, rfl⟩
  obtain ⟨tree?, hcommit, hlayers⟩ := hlayer
  have hcount : ([] : List F).length ≠ parameters.roundCount := wf.roundCount_pos.ne
  rw [ofBitReversed?, if_neg (not_not.mpr hsize), hcommit, after, hlayers, if_neg hcount]
  rfl

/-- The values in the order of the domain lead to the same prover. -/
theorem ofEvaluations?_valuesOf (wf : parameters.WellFormed) (p : F[X]) :
    ofEvaluations? parameters (parameters.initialDomain.valuesOf p) =
      .ok (after parameters p []) := by
  have hsize : (parameters.initialDomain.valuesOf p).size = parameters.codewordLength :=
    Coset.size_valuesOf _ _
  rw [ofEvaluations?, if_neg (not_not.mpr hsize), Coset.bitReversed?_valuesOf, mapError_ok,
    ok_bind, ofBitReversed?_wordOf wf]

theorem pendingRound_after {p : F[X]} {done : List F}
    (room : done.length ≤ parameters.roundCount) :
    (after parameters p done).pendingRound = done.length := by
  rw [pendingRound, after]
  by_cases hcount : done.length = parameters.roundCount
  · rw [if_pos hcount]
    exact hcount.symm
  · have hpending : done.length + 1 ≤ parameters.rounds.length := lt_of_le_of_ne room hcount
    rw [if_neg hcount, List.size_toArray, length_layersAfter, min_eq_left hpending]
    rfl

/-- The state after one more round, from the folded word. -/
private theorem advance?_after (wf : parameters.WellFormed) {p : F[X]} {done : List F}
    (pending : done.length < parameters.roundCount) (challenge : F) {next : Coset F}
    (hnext : parameters.domains[done.length + 1]? = some next) :
    ∃ message, (after parameters p done).advance? (done.length + 1)
        (next.wordOf (foldedBy parameters.rounds (done ++ [challenge]) p)) =
      .ok (message, after parameters p (done ++ [challenge])) := by
  have hnotFinal : done.length ≠ parameters.roundCount := pending.ne
  cases hstage : parameters.rounds[done.length + 1]? with
  | some stage =>
      have hinside := (List.getElem?_eq_some_iff.mp hstage).1
      have hdomain : next = stage.domain := by
        rw [Parameters.getElem?_domains hstage] at hnext
        exact (Option.some.inj hnext).symm
      obtain ⟨after, hafter⟩ := Parameters.exists_getElem?_domains hinside
      have hfolds := wf.chain.foldsTo hstage hafter
      have hcount : (done ++ [challenge]).length ≠ parameters.roundCount := by
        rw [List.length_append, List.length_singleton]
        exact hinside.ne
      refine ⟨.commitment (stage.treeOf
        (foldedBy parameters.rounds (done ++ [challenge]) p)).root, ?_⟩
      simp only [advance?, Prover.after, hstage, hdomain]
      rw [hfolds.commit?_wordOf, if_neg hcount, if_neg hnotFinal,
        layersAfter_append hstage]
      simp [Round.layerOf]
  | none =>
      have hlast : done.length + 1 = parameters.rounds.length := by
        have := List.getElem?_eq_none_iff.mp hstage
        have : done.length < parameters.rounds.length := pending
        omega
      have hdomain : next = parameters.finalDomain := by
        have hfinal := parameters.getElem?_domains_roundCount
        rw [Parameters.roundCount, ← hlast, hnext] at hfinal
        exact Option.some.inj hfinal
      have hcount : (done ++ [challenge]).length = parameters.roundCount := by
        rw [List.length_append, List.length_singleton]
        exact hlast
      refine ⟨.finalPolynomial (finalCoefficients parameters
        (foldedBy parameters.rounds (done ++ [challenge]) p)), ?_⟩
      simp only [advance?, after, hstage, hdomain]
      rw [Coset.bitReversed?_wordOf, mapError_ok, ok_bind, Coset.interpolate?_valuesOf,
        mapError_ok, ok_bind, if_pos hcount, layersAfter_append_last hlast]
      rfl

/-- Folding the pending round leads to the next state. -/
theorem foldRound_after (wf : parameters.WellFormed) {p : F[X]} {done : List F}
    (pending : done.length < parameters.roundCount) (challenge : F) :
    ∃ message, (after parameters p done).foldRound done.length challenge =
      (.ok message, after parameters p (done ++ [challenge])) := by
  have hround : parameters.rounds[done.length]? = some parameters.rounds[done.length] :=
    List.getElem?_eq_getElem pending
  obtain ⟨next, hnext⟩ := Parameters.exists_getElem?_domains pending
  obtain ⟨tree?, hlayer⟩ := getElem?_layersAfter parameters.oracle hround le_rfl p
  rw [List.take_length] at hlayer
  have hfolded := (wf.chain.foldsTo hround hnext).foldWord?_wordOf
    (foldedBy parameters.rounds done p) challenge
  rw [← foldedBy_append hround] at hfolded
  obtain ⟨message, hadvance⟩ := advance?_after wf (p := p) pending challenge hnext
  refine ⟨message, ?_⟩
  have hpending : (after parameters p done).foldPending? done.length challenge =
      .ok (message, after parameters p (done ++ [challenge])) := by
    have hlayers : (after parameters p done).layers[done.length]? =
        some ⟨parameters.rounds[done.length].domain.wordOf (foldedBy parameters.rounds done p),
          tree?⟩ := by
      rw [← hlayer]
      exact List.getElem?_toArray
    rw [foldPending?, hlayers]
    simp only [after, hround]
    rw [hfolded, mapError_ok, ok_bind]
    exact hadvance
  rw [foldRound, pendingRound_after pending.le, if_neg (not_not.mpr rfl), hpending]

/-- The same within a list of challenges for later rounds. -/
theorem foldRound_take (wf : parameters.WellFormed) (p : F[X]) {challenges : List F} {round : ℕ}
    (hinside : round < challenges.length) (pending : round < parameters.roundCount) :
    ∃ message, (after parameters p (challenges.take round)).foldRound round
        (challenges.getD round 0) =
      (.ok message, after parameters p (challenges.take (round + 1))) := by
  have hlength : (challenges.take round).length = round := List.length_take_of_le hinside.le
  have htake : challenges.take (round + 1) =
      challenges.take round ++ [challenges.getD round 0] := by
    rw [List.take_add_one, List.getElem?_eq_getElem hinside, Option.toList_some,
      List.getD_eq_getElem _ _ hinside]
  obtain ⟨message, hfold⟩ :=
    foldRound_after wf (p := p) (by rwa [hlength]) (challenges.getD round 0)
  rw [hlength, ← htake] at hfold
  exact ⟨message, hfold⟩

/-- Folding any number of rounds that are left leads to the state after them. -/
theorem foldAll_after (wf : parameters.WellFormed) (p : F[X]) (done rest : List F)
    (room : (done ++ rest).length ≤ parameters.roundCount) :
    (after parameters p done).foldAll done.length rest =
      (.ok (), after parameters p (done ++ rest)) := by
  induction rest generalizing done with
  | nil => rw [foldAll, List.append_nil]
  | cons challenge rest ih =>
      have hpending : done.length < parameters.roundCount := by
        rw [List.length_append, List.length_cons] at room
        omega
      obtain ⟨message, hstep⟩ := foldRound_after wf (p := p) hpending challenge
      have hlength : (done ++ [challenge]).length = done.length + 1 := by simp
      have hrest := ih (done ++ [challenge]) (by simpa using room)
      rw [hlength, List.append_assoc, List.singleton_append] at hrest
      rw [foldAll, hstep]
      exact hrest

end Prover
end Fri
end OracleProofs

/-
# Sessions with the prover of the sumcheck

The prover can be called in any order, and a part of a run can be repeated: quotients
are committed again, words are combined again, rounds are asked for out of turn. What it
holds is described by a short record of the calls that it did not refuse, the last
commitment, the last combination since and the folds since then, so nothing of an
abandoned attempt survives. Which calls it refuses depends on this record alone.
-/

import Mathlib
import OracleProofs.Proofs.Fri.Session
import OracleProofs.Proofs.Sumcheck.Completeness

namespace OracleProofs
namespace Sumcheck

variable {F : Type}

/-- What a prover can be asked for. -/
inductive Call (F : Type) where
  | commitQuotients (batching : List F)
  | combine (combination : List (Combination F))
  | foldRound (round : ℕ) (challenges : List F)
  | query (queries : List ℕ)

/-- What a prover answers if it does not refuse. -/
inductive Answer (F : Type) where
  | root (root : Merkle.Root)
  | combined
  | messages (messages : List (Fri.Message F))
  | proof (proof : Proof F)

/-- The calls that count: the last commitment that was answered, the last combination that
was answered since, and the rounds that were folded since then. -/
structure Record (F : Type) where
  batching? : Option (List F) := none
  combination? : Option (List (Combination F)) := none
  /-- The challenges of each fold with the number of its round. -/
  folding : List (List F × ℕ) := []

namespace Record

/-- The record after one more call that was answered. -/
def add (record : Record F) : Call F → Record F
  | .commitQuotients batching => { batching? := some batching }
  | .combine combination =>
      { batching? := record.batching?, combination? := some combination }
  | .foldRound round challenges =>
      { record with folding := record.folding ++ [(challenges, round)] }
  | .query _ => record

/-- The challenges of the calls that count. -/
def challenges (record : Record F) : Challenges F :=
  .ofRounds (record.batching?.getD []) (record.combination?.getD [])
    (record.folding.map Prod.fst)

variable [FiniteField F]

/-- Whether a call is answered. -/
def Admits (parameters : Parameters F) (record : Record F) : Call F → Prop
  | .commitQuotients batching => batching.length = parameters.repetitions
  | .combine combination =>
      record.batching?.isSome ∧ combination.length = parameters.repetitions
  | .foldRound round challenges =>
      record.combination?.isSome ∧ challenges.length = parameters.repetitions ∧
        round = record.folding.length ∧ round < parameters.fri.roundCount
  | .query queries =>
      record.combination?.isSome ∧ record.folding.length = parameters.fri.roundCount ∧
        ∀ position ∈ queries, position < parameters.codewordLength

instance (parameters : Parameters F) (record : Record F) :
    DecidablePred (record.Admits parameters)
  | .commitQuotients batching =>
      inferInstanceAs (Decidable (batching.length = parameters.repetitions))
  | .combine _ => inferInstanceAs (Decidable (_ ∧ _))
  | .foldRound _ _ => inferInstanceAs (Decidable (_ ∧ _))
  | .query _ => inferInstanceAs (Decidable (_ ∧ _))

end Record

variable [FiniteField F]

namespace Prover

/-- Answers a call. -/
def answer (prover : Prover F) : Call F → Except SumcheckError (Answer F) × Prover F
  | .commitQuotients batching =>
      ((prover.commitQuotients batching).1.map .root, (prover.commitQuotients batching).2)
  | .combine combination =>
      ((prover.combine combination).1.map fun _ => .combined, (prover.combine combination).2)
  | .foldRound round challenges =>
      ((prover.foldRound round challenges).1.map .messages,
        (prover.foldRound round challenges).2)
  | .query queries => ((prover.query queries).map .proof, prover)

/-- Answers calls one after the other and keeps the record. -/
def session (prover : Prover F) (record : Record F) : List (Call F) → Record F × Prover F
  | [] => (record, prover)
  | call :: rest =>
      match prover.answer call with
      | (.ok _, next) => next.session (record.add call) rest
      | (.error _, next) => next.session record rest

variable [LawfulField F] {parameters : Parameters F} {given : Instance F}

/-- The states that belong to a record. -/
inductive Follows (parameters : Parameters F) (given : Instance F) : Record F → Prover F → Prop
  | untouched : Follows parameters given {} (initial parameters given)
  | quotients {challenges : Challenges F} (count : challenges.length = parameters.repetitions) :
      Follows parameters given { batching? := some (challenges.map RepetitionChallenges.batching) }
        (committed parameters given challenges)
  | folded {batching : List F} {combination : List (Combination F)} {folding : List (List F)}
      (hbatching : batching.length = parameters.repetitions)
      (hcombination : combination.length = parameters.repetitions)
      (complete : ∀ round ∈ folding, round.length = parameters.repetitions)
      (room : folding.length ≤ parameters.fri.roundCount) :
      Follows parameters given ⟨some batching, some combination, folding.zipIdx⟩
        (after parameters given (.ofRounds batching combination folding) folding.length)

/-- Committed quotients depend on the batching challenges alone. -/
theorem committed_congr {challenges others : Challenges F}
    (same : challenges.map RepetitionChallenges.batching =
      others.map RepetitionChallenges.batching) :
    committed parameters given challenges = committed parameters given others := by
  have hwords : given.quotientWords parameters challenges =
      given.quotientWords parameters others := by
    have hmap := congrArg (List.map fun batching =>
      parameters.codewordDomain.wordOf (given.quotient parameters batching)) same
    rwa [List.map_map, List.map_map] at hmap
  have hquotients : quotientsOf parameters given challenges =
      quotientsOf parameters given others := by
    rw [quotientsOf, quotientsOf, hwords, same]
  rw [committed, committed, hquotients]

/-- What is folded does not depend on the challenges that follow. -/
theorem after_append {batching : List F} {combination : List (Combination F)}
    {folding : List (List F)} {round : List F}
    (hbatching : batching.length = parameters.repetitions)
    (hcombination : combination.length = parameters.repetitions)
    (complete : ∀ own ∈ folding ++ [round], own.length = parameters.repetitions) :
    after parameters given (.ofRounds batching combination (folding ++ [round])) folding.length =
      after parameters given (.ofRounds batching combination folding) folding.length := by
  have hshorter : ∀ own ∈ folding, own.length = parameters.repetitions := fun own hmem =>
    complete own (List.mem_append_left _ hmem)
  have hlonger : (Challenges.ofRounds batching combination (folding ++ [round])).length =
      parameters.repetitions := Challenges.length_ofRounds hbatching hcombination
  have hprovers : (Challenges.ofRounds batching combination (folding ++ [round])).map (fun own =>
        Fri.Prover.after parameters.fri (given.combined parameters own)
          (own.folding.take folding.length)) =
      (Challenges.ofRounds batching combination folding).map fun own =>
        Fri.Prover.after parameters.fri (given.combined parameters own)
          (own.folding.take folding.length) := by
    apply List.ext_getElem
    · rw [List.length_map, List.length_map, hlonger,
        Challenges.length_ofRounds hbatching hcombination]
    · intro place hleft hright
      rw [List.length_map] at hleft hright
      have hinside : place < parameters.repetitions := by rwa [hlonger] at hleft
      have htake : (Challenges.ofRounds batching combination
            (folding ++ [round]))[place].folding.take folding.length =
          (Challenges.ofRounds batching combination folding)[place].folding.take
            folding.length := by
        rw [Challenges.getElem_ofRounds complete hinside, Challenges.getElem_ofRounds hshorter
          hinside, List.map_append, List.take_left' (List.length_map _),
          List.take_of_length_le (List.length_map _).le]
      rw [List.getElem_map, List.getElem_map, htake]
      simp only [Challenges.ofRounds, List.getElem_mapIdx]
      rfl
  have hcommitted : committed parameters given
        (.ofRounds batching combination (folding ++ [round])) =
      committed parameters given (.ofRounds batching combination folding) := by
    apply committed_congr
    rw [Challenges.map_batching_ofRounds hbatching hcombination,
      Challenges.map_batching_ofRounds hbatching hcombination]
  rw [after, after, hcommitted, hprovers]

omit [LawfulField F] in
theorem commitQuotients_of_length_ne {prover : Prover F} {batching : List F}
    (count : batching.length ≠ prover.parameters.repetitions) :
    prover.commitQuotients batching =
      (.error (.repetitionChallenges prover.parameters.repetitions batching.length), prover) := by
  have hround : prover.quotientRound? batching =
      .error (.repetitionChallenges prover.parameters.repetitions batching.length) := by
    rw [quotientRound?, checkRepetitions, if_pos count]
    rfl
  rw [commitQuotients, hround]

omit [LawfulField F] in
/-- Without quotients, or with a wrong number of challenges, nothing is combined. -/
theorem combine_of_refused {prover : Prover F} {combination : List (Combination F)}
    (refused : prover.quotients?.isSome → combination.length ≠ prover.parameters.repetitions) :
    ∃ error, prover.combine combination = (.error error, prover) := by
  cases hquotients : prover.quotients? with
  | none =>
      have hcombined : prover.combined? combination = .error .quotientsNotCommitted := by
        simp only [combined?, hquotients]
      exact ⟨_, by rw [combine, hcombined]⟩
  | some quotients =>
      have hcount := refused (by rw [hquotients]; rfl)
      have hcombined : prover.combined? combination =
          .error (.repetitionChallenges prover.parameters.repetitions combination.length) := by
        simp only [combined?, hquotients]
        rw [checkRepetitions, if_pos hcount]
        rfl
      exact ⟨_, by rw [combine, hcombined]⟩

omit [LawfulField F] in
/-- Without provers of the low-degree test, or with a wrong number of challenges, nothing
is folded. -/
theorem foldRound_of_refused {prover : Prover F} {challenges : List F}
    (refused : prover.friProvers ≠ [] → challenges.length ≠ prover.parameters.repetitions)
    (round : ℕ) : ∃ error, prover.foldRound round challenges = (.error error, prover) := by
  by_cases hempty : prover.friProvers = []
  · have hcheck : prover.checkFolding challenges.length = .error .friNotStarted := by
      rw [checkFolding, hempty]
      rfl
    exact ⟨_, by rw [foldRound, hcheck]⟩
  · have hcheck : prover.checkFolding challenges.length =
        .error (.repetitionChallenges prover.parameters.repetitions challenges.length) := by
      rw [checkFolding, List.isEmpty_eq_false_iff.mpr hempty, checkRepetitions,
        if_pos (refused hempty)]
      rfl
    exact ⟨_, by rw [foldRound, hcheck]⟩

omit [LawfulField F] in
/-- If every repetition refuses a round and stays as it was, so does the prover. -/
theorem foldRound_of_all_refused {prover : Prover F} {round : ℕ}
    (count : prover.friProvers.length = prover.parameters.repetitions)
    (refused : ∀ fri ∈ prover.friProvers, ∀ challenge, ∃ error,
      fri.foldRound round challenge = (.error error, fri)) (challenges : List F) :
    ∃ error, prover.foldRound round challenges = (.error error, prover) := by
  by_cases hrefused : prover.friProvers ≠ [] → challenges.length ≠ prover.parameters.repetitions
  · exact foldRound_of_refused hrefused round
  · rw [Classical.not_imp, not_not] at hrefused
    obtain ⟨hstarted, hcount⟩ := hrefused
    have hcheck : prover.checkFolding challenges.length = .ok () := by
      rw [checkFolding, List.isEmpty_eq_false_iff.mpr hstarted]
      exact checkRepetitions_eq_ok hcount
    have hprovers : (List.zipWith (fun fri challenge => Fri.Prover.foldRound fri round challenge)
        prover.friProvers challenges).map Prod.snd = prover.friProvers := by
      apply List.ext_getElem
      · simp [count, hcount]
      · intro place hleft hright
        have hplace : place < challenges.length := by rwa [hcount, ← count]
        obtain ⟨error, hfold⟩ := refused _ (List.getElem_mem hright) challenges[place]
        rw [List.getElem_map, List.getElem_zipWith, hfold]
    obtain ⟨error, hmessages⟩ : ∃ error, (List.zipWith
        (fun fri challenge => Fri.Prover.foldRound fri round challenge)
        prover.friProvers challenges).mapM Prod.fst = .error error := by
      obtain ⟨fri, rest, hfri⟩ := List.exists_cons_of_ne_nil hstarted
      obtain ⟨challenge, later, rfl⟩ := List.exists_cons_of_length_pos (l := challenges) (by
        rw [hcount, ← count, hfri]
        exact Nat.succ_pos _)
      obtain ⟨error, hfold⟩ := refused fri (hfri ▸ List.mem_cons_self) challenge
      refine ⟨error, ?_⟩
      rw [hfri, List.zipWith_cons_cons, List.mapM_cons, hfold]
      rfl
    refine ⟨.fri error, ?_⟩
    simp only [foldRound, hcheck, hmessages, hprovers]
    rfl

namespace Follows

variable {record : Record F} {prover : Prover F}

theorem exists_restarted (follows : Follows parameters given record prover) :
    ∃ quotients? friProvers, prover = { initial parameters given with quotients?, friProvers } := by
  cases follows with
  | untouched => exact ⟨_, _, rfl⟩
  | quotients count => exact ⟨_, _, rfl⟩
  | folded hbatching hcombination complete room => exact ⟨_, _, rfl⟩

theorem parameters_eq (follows : Follows parameters given record prover) :
    prover.parameters = parameters := by
  obtain ⟨quotients?, friProvers, rfl⟩ := follows.exists_restarted
  rfl

theorem isSome_quotients? (follows : Follows parameters given record prover) :
    prover.quotients?.isSome = record.batching?.isSome := by
  cases follows <;> rfl

/-- All repetitions have folded the same number of rounds. -/
theorem exists_friProvers_eq (follows : Follows parameters given record prover)
    (combined : record.combination?.isSome) :
    prover.friProvers.length = parameters.repetitions ∧
      ∀ fri ∈ prover.friProvers, ∃ p done, done.length = record.folding.length ∧
        fri = Fri.Prover.after parameters.fri p done := by
  cases follows with
  | untouched => cases combined
  | quotients count => cases combined
  | @folded batching combination folding hbatching hcombination complete room =>
      refine ⟨?_, fun fri hmem => ?_⟩
      · exact (List.length_map _).trans (Challenges.length_ofRounds hbatching hcombination)
      · obtain ⟨own, hown, rfl⟩ := List.mem_map.mp hmem
        have hlength := Challenges.length_folding_ofRounds hbatching hcombination complete hown
        refine ⟨_, _, ?_, rfl⟩
        rw [List.length_take, hlength, min_self, List.length_zipIdx]

theorem friProvers_eq_nil (follows : Follows parameters given record prover)
    (notCombined : ¬record.combination?.isSome) : prover.friProvers = [] := by
  cases follows with
  | untouched => rfl
  | quotients count => rfl
  | folded hbatching hcombination complete room => exact absurd rfl notCombined

/-- Rounds were folded in order, and only after a combination of committed quotients. -/
theorem numbered (follows : Follows parameters given record prover)
    (combined : record.combination?.isSome) :
    record.batching?.isSome ∧
      record.folding.map Prod.snd = List.range record.folding.length := by
  cases follows with
  | untouched => cases combined
  | quotients count => cases combined
  | folded hbatching hcombination complete room =>
      refine ⟨rfl, ?_⟩
      rw [List.zipIdx_map_snd, List.length_zipIdx, List.range_eq_range']

theorem length_folding_le (follows : Follows parameters given record prover) :
    record.folding.length ≤ parameters.fri.roundCount := by
  cases follows with
  | untouched => exact Nat.zero_le _
  | quotients count => exact Nat.zero_le _
  | folded hbatching hcombination complete room => rwa [List.length_zipIdx]

/-- An admissible commitment starts over. -/
theorem exists_commitQuotients (follows : Follows parameters given record prover)
    (wf : parameters.WellFormed) {batching : List F}
    (count : batching.length = parameters.repetitions) :
    ∃ root next, prover.commitQuotients batching = (.ok root, next) ∧
      Follows parameters given { batching? := some batching } next := by
  obtain ⟨challenges, rfl⟩ : ∃ challenges : Challenges F,
      challenges.map RepetitionChallenges.batching = batching :=
    List.map_surjective_iff.mpr (fun own => ⟨⟨own, ⟨0, 0, 0, 0⟩, []⟩, rfl⟩) batching
  obtain ⟨quotients?, friProvers, rfl⟩ := follows.exists_restarted
  rw [List.length_map] at count
  exact ⟨_, _, commitQuotients_restarted wf given quotients? friProvers count, .quotients count⟩

/-- An admissible combination of committed quotients starts the low-degree test. -/
theorem exists_combine (follows : Follows parameters given record prover)
    (wf : parameters.WellFormed) {batching : List F} {combination : List (Combination F)}
    (committed : record.batching? = some batching)
    (count : combination.length = parameters.repetitions) :
    ∃ next, prover.combine combination = (.ok (), next) ∧
      Follows parameters given { batching? := some batching, combination? := some combination }
        next := by
  have hstart : batching.length = parameters.repetitions ∧ ∃ friProvers, prover =
      { Prover.committed parameters given (.ofRounds batching combination []) with
        friProvers } := by
    cases follows with
    | untouched => cases committed
    | quotients hcount =>
        cases committed
        rw [List.length_map]
        refine ⟨hcount, [], committed_congr ?_⟩
        rw [Challenges.map_batching_ofRounds ((List.length_map _).trans hcount) count]
    | @folded _ combined folding hbatching hcombination complete room =>
        cases committed
        have hsame : Prover.committed parameters given
              (.ofRounds batching combined folding) =
            Prover.committed parameters given (.ofRounds batching combination []) := by
          apply committed_congr
          rw [Challenges.map_batching_ofRounds hbatching hcombination,
            Challenges.map_batching_ofRounds hbatching count]
        exact ⟨hbatching, _, by rw [after, hsame]⟩
  obtain ⟨hbatching, friProvers, rfl⟩ := hstart
  have hlength : (Challenges.ofRounds batching combination []).length = parameters.repetitions :=
    Challenges.length_ofRounds hbatching count
  have hcombine := combine_restarted wf given friProvers hlength
  rw [Challenges.map_combination_ofRounds hbatching count] at hcombine
  exact ⟨_, hcombine, .folded hbatching count (List.forall_mem_nil _) (Nat.zero_le _)⟩

/-- The round that is next is folded in all repetitions. -/
theorem exists_foldRound (follows : Follows parameters given record prover)
    (wf : parameters.WellFormed) {challenges : List F} {round : ℕ}
    (admits : record.Admits parameters (.foldRound round challenges)) :
    ∃ messages next, prover.foldRound round challenges = (.ok messages, next) ∧
      Follows parameters given (record.add (.foldRound round challenges)) next := by
  obtain ⟨hcombined, hcount, hround, hpending⟩ := admits
  cases follows with
  | untouched => cases hcombined
  | quotients count => cases hcombined
  | @folded batching combination folding hbatching hcombination complete room =>
      rw [List.length_zipIdx] at hround
      subst hround
      have hcomplete : ∀ own ∈ folding ++ [challenges], own.length = parameters.repetitions := by
        rw [List.forall_mem_append, List.forall_mem_singleton]
        exact ⟨complete, hcount⟩
      let extended : Challenges F := .ofRounds batching combination (folding ++ [challenges])
      have hlength : (folding ++ [challenges]).length = folding.length + 1 := by simp
      have hdrawn : ∀ own ∈ extended, folding.length < own.folding.length := by
        intro own hmem
        rw [Challenges.length_folding_ofRounds hbatching hcombination hcomplete hmem, hlength]
        exact Nat.lt_succ_self _
      have hlast : extended.ofRound folding.length = challenges := by
        have hrounds := Challenges.map_ofRound_ofRounds hbatching hcombination hcomplete
        rw [hlength, List.range_succ, List.map_append, List.map_singleton] at hrounds
        exact List.singleton_inj.mp (List.append_inj' hrounds rfl).2
      obtain ⟨messages, hfold⟩ := foldRound_after wf given
        (Challenges.length_ofRounds hbatching hcombination) hdrawn hpending
      rw [hlast, after_append hbatching hcombination hcomplete] at hfold
      refine ⟨messages, _, hfold, ?_⟩
      have hrecord : Record.add ⟨some batching, some combination, folding.zipIdx⟩
            (.foldRound folding.length challenges) =
          ⟨some batching, some combination, (folding ++ [challenges]).zipIdx⟩ := by
        simp [Record.add, List.zipIdx_append]
      rw [hrecord, ← hlength]
      exact .folded hbatching hcombination hcomplete (hlength ▸ hpending)

/-- A round out of turn is refused by all repetitions. -/
theorem exists_foldRound_error (follows : Follows parameters given record prover)
    {challenges : List F} {round : ℕ}
    (refused : ¬record.Admits parameters (.foldRound round challenges)) :
    ∃ error, prover.foldRound round challenges = (.error error, prover) := by
  by_cases hcombined : record.combination?.isSome
  · obtain ⟨hlength, hprovers⟩ := follows.exists_friProvers_eq hcombined
    rw [← follows.parameters_eq] at hlength
    by_cases hcount : challenges.length = prover.parameters.repetitions
    · refine foldRound_of_all_refused hlength (fun fri hmem challenge => ?_) challenges
      obtain ⟨p, done, hdone, rfl⟩ := hprovers fri hmem
      have hturn : ¬(round = done.length ∧ round < parameters.fri.roundCount) := by
        rintro ⟨hround, hpending⟩
        rw [follows.parameters_eq] at hcount
        exact refused ⟨hcombined, hcount, hround.trans hdone, hpending⟩
      exact ⟨_, Fri.Prover.foldRound_after_of_not_pending
        (hdone.trans_le follows.length_folding_le) hturn challenge⟩
    · exact foldRound_of_refused (fun _ => hcount) round
  · exact foldRound_of_refused (fun hstarted =>
      absurd (follows.friProvers_eq_nil hcombined) hstarted) round

/-- After the last round, queries inside the words are answered with the proof of an honest
run. -/
theorem query_eq_ok (follows : Follows parameters given record prover)
    (wf : parameters.WellFormed) {queries : List ℕ}
    (admits : record.Admits parameters (.query queries)) :
    record.challenges.length = parameters.repetitions ∧
      (∀ own ∈ record.challenges, own.folding.length = parameters.fri.roundCount) ∧
      prover.query queries = .ok (honestProof parameters given record.challenges queries) := by
  obtain ⟨hcombined, hrounds, hinside⟩ := admits
  cases follows with
  | untouched => cases hcombined
  | quotients count => cases hcombined
  | @folded batching combination folding hbatching hcombination complete room =>
      rw [List.length_zipIdx] at hrounds
      have hchallenges : Record.challenges ⟨some batching, some combination, folding.zipIdx⟩ =
          .ofRounds batching combination folding := by
        rw [Record.challenges, List.zipIdx_map_fst]
        rfl
      have hlength : (Challenges.ofRounds batching combination folding).length =
          parameters.repetitions := Challenges.length_ofRounds hbatching hcombination
      rw [hchallenges, hrounds]
      have hcomplete : ∀ own ∈ Challenges.ofRounds batching combination folding,
          own.folding.length = parameters.fri.roundCount := by
        intro own hmem
        rw [Challenges.length_folding_ofRounds hbatching hcombination complete hmem, hrounds]
      exact ⟨hlength, hcomplete, query_after wf given hlength hcomplete hinside⟩

/-- No other queries are answered. -/
theorem admits_of_query (follows : Follows parameters given record prover)
    (wf : parameters.WellFormed) {queries : List ℕ} {proof : Proof F}
    (answered : prover.query queries = .ok proof) :
    record.Admits parameters (.query queries) := by
  rw [query] at answered
  cases hquotients : prover.quotients? with
  | none =>
      simp only [hquotients] at answered
      cases answered
  | some quotients =>
      simp only [hquotients, ite_error_eq_ok_iff] at answered
      obtain ⟨hstarted, answered⟩ := answered
      rw [List.isEmpty_iff] at hstarted
      have hcombined : record.combination?.isSome :=
        by_contra fun hnot => hstarted (follows.friProvers_eq_nil hnot)
      cases hfind : queries.find? (prover.parameters.codewordLength ≤ ·) with
      | some position =>
          simp only [hfind] at answered
          cases answered
      | none =>
          simp only [hfind] at answered
          obtain ⟨friProofs, hproofs, -⟩ := bind_eq_ok_iff.mp answered
          obtain ⟨fri, hmem⟩ := List.exists_mem_of_ne_nil _ hstarted
          obtain ⟨friProof, hquery⟩ := exists_of_mapM_eq_ok (mapError_eq_ok_iff.mp hproofs) hmem
          obtain ⟨p, done, hdone, rfl⟩ := (follows.exists_friProvers_eq hcombined).2 fri hmem
          obtain ⟨hlast, hinside⟩ := (Fri.Prover.query_after_eq_ok_iff wf.fri p
            (hdone.trans_le follows.length_folding_le) queries).mp ⟨friProof, hquery⟩
          exact ⟨hcombined, hdone.symm.trans hlast, hinside⟩

/-- A call is answered if the record admits it, and is refused without a trace
otherwise. -/
theorem answer (follows : Follows parameters given record prover) (wf : parameters.WellFormed)
    (call : Call F) :
    (record.Admits parameters call ∧ ∃ answer next, prover.answer call = (.ok answer, next) ∧
        Follows parameters given (record.add call) next) ∨
      (¬record.Admits parameters call ∧ ∃ error, prover.answer call = (.error error, prover)) := by
  by_cases hadmits : record.Admits parameters call
  · refine .inl ⟨hadmits, ?_⟩
    cases call with
    | commitQuotients batching =>
        obtain ⟨root, next, hcommit, hfollows⟩ := follows.exists_commitQuotients wf hadmits
        exact ⟨.root root, next, by rw [Prover.answer, hcommit]; rfl, hfollows⟩
    | combine combination =>
        obtain ⟨batching, hbatching⟩ := Option.isSome_iff_exists.mp hadmits.1
        obtain ⟨next, hcombine, hfollows⟩ := follows.exists_combine wf hbatching hadmits.2
        refine ⟨.combined, next, by rw [Prover.answer, hcombine]; rfl, ?_⟩
        rw [Record.add, hbatching]
        exact hfollows
    | foldRound round challenges =>
        obtain ⟨messages, next, hfold, hfollows⟩ := follows.exists_foldRound wf hadmits
        exact ⟨.messages messages, next, by rw [Prover.answer, hfold]; rfl, hfollows⟩
    | query queries =>
        obtain ⟨-, -, hquery⟩ := follows.query_eq_ok wf hadmits
        exact ⟨.proof _, prover, by rw [Prover.answer, hquery]; rfl, follows⟩
  · refine .inr ⟨hadmits, ?_⟩
    cases call with
    | commitQuotients batching =>
        have hcount : batching.length ≠ prover.parameters.repetitions := by
          rw [follows.parameters_eq]
          exact hadmits
        exact ⟨_, by rw [Prover.answer, commitQuotients_of_length_ne hcount]; rfl⟩
    | combine combination =>
        have hrefused : prover.quotients?.isSome →
            combination.length ≠ prover.parameters.repetitions := by
          rw [follows.isSome_quotients?, follows.parameters_eq]
          exact fun hsome hcount => hadmits ⟨hsome, hcount⟩
        obtain ⟨error, hcombine⟩ := combine_of_refused hrefused
        exact ⟨error, by rw [Prover.answer, hcombine]; rfl⟩
    | foldRound round challenges =>
        obtain ⟨error, hfold⟩ := follows.exists_foldRound_error hadmits
        exact ⟨error, by rw [Prover.answer, hfold]; rfl⟩
    | query queries =>
        cases hquery : prover.query queries with
        | ok proof => exact absurd (follows.admits_of_query wf hquery) hadmits
        | error error => exact ⟨error, by rw [Prover.answer, hquery]; rfl⟩

end Follows

/-- Any session leads to a state that belongs to its record, and the record holds the
calls that were admissible when they came. -/
theorem session_follows (wf : parameters.WellFormed) {record : Record F} {prover : Prover F}
    (follows : Follows parameters given record prover) (calls : List (Call F)) :
    Follows parameters given (prover.session record calls).1 (prover.session record calls).2 ∧
      (prover.session record calls).1 = calls.foldl (fun record call =>
        if record.Admits parameters call then record.add call else record) record := by
  induction calls generalizing record prover with
  | nil => exact ⟨follows, rfl⟩
  | cons call rest ih =>
      rcases follows.answer wf call with
        ⟨hadmits, answer, next, hanswer, hnext⟩ | ⟨hrefused, error, hanswer⟩
      · rw [session, hanswer, List.foldl_cons, if_pos hadmits]
        exact ih hnext
      · rw [session, hanswer, List.foldl_cons, if_neg hrefused]
        exact ih follows

/-- However a prover is called, its repetitions are at one round, and a call that it
refuses changes nothing. It answers exactly queries inside the words after all rounds since
the last combination, which must belong to the last commitment, and the verifier for the
sum of the inner product accepts every proof under the challenges that these calls had. -/
theorem session_of_started {summationDomain codewordDomain : EvaluationDomain F}
    {degreeBound : ℕ} {localization : List ℕ} {repetitions : ℕ} {parameters : Parameters F}
    (accepted : Parameters.new? summationDomain codewordDomain degreeBound localization
      repetitions = .ok parameters)
    {publicPolys secretPolys : List (DensePoly F)} {blinding : DensePoly F} {start : Prover F}
    (started : Prover.new? parameters publicPolys secretPolys blinding = .ok start)
    {target : F} (sum : target = ∑ a ∈ parameters.summation.points,
      ((publicPolys.zip secretPolys).map fun pair =>
        pair.1.toPolynomial.eval a * pair.2.toPolynomial.eval a).sum)
    {calls : List (Call F)} {record : Record F} {reached : Prover F}
    (ran : start.session {} calls = (record, reached)) :
    reached.friProvers.length =
        (if record.combination?.isSome then parameters.repetitions else 0) ∧
      (∀ fri ∈ reached.friProvers, fri.pendingRound = record.folding.length) ∧
      (∀ call error, (reached.answer call).1 = .error error →
        (reached.answer call).2 = reached) ∧
      (∀ queries, (∃ proof, reached.query queries = .ok proof) ↔
        record.batching?.isSome ∧ record.combination?.isSome ∧
          record.folding.map Prod.snd = List.range parameters.fri.roundCount ∧
          ∀ position ∈ queries, position < parameters.codewordLength) ∧
      ∀ queries proof, reached.query queries = .ok proof →
        (Verifier.new parameters publicPolys target).verify proof record.challenges queries =
          .ok true := by
  obtain ⟨wf, -, -, -, -⟩ := Parameters.wellFormed_of_accepted accepted
  obtain ⟨hgiven, rfl⟩ := eq_initial_of_new? wf started
  let given : Instance F := ⟨publicPolys, secretPolys, blinding⟩
  obtain ⟨follows, -⟩ := session_follows wf (.untouched : Follows parameters given _ _) calls
  rw [ran] at follows
  refine ⟨?_, fun fri hmem => ?_, fun call error refused => ?_, fun queries => ⟨?_, ?_⟩,
    fun queries proof answered => ?_⟩
  · by_cases hcombined : record.combination?.isSome
    · rw [if_pos hcombined]
      exact (follows.exists_friProvers_eq hcombined).1
    · rw [if_neg hcombined, follows.friProvers_eq_nil hcombined, List.length_nil]
  · have hcombined : record.combination?.isSome := by
      by_contra hnot
      rw [follows.friProvers_eq_nil hnot] at hmem
      cases hmem
    obtain ⟨p, done, hdone, rfl⟩ := (follows.exists_friProvers_eq hcombined).2 fri hmem
    rw [← hdone]
    exact Fri.Prover.pendingRound_after (hdone.trans_le follows.length_folding_le)
  · rcases follows.answer wf call with ⟨-, answer, next, hanswer, -⟩ | ⟨-, other, hanswer⟩
    · rw [hanswer] at refused
      cases refused
    · rw [hanswer]
  · rintro ⟨proof, hproof⟩
    obtain ⟨hcombined, hrounds, hinside⟩ := follows.admits_of_query wf hproof
    obtain ⟨hbatching, hnumbers⟩ := follows.numbered hcombined
    exact ⟨hbatching, hcombined, hnumbers.trans (congrArg _ hrounds), hinside⟩
  · rintro ⟨-, hcombined, hnumbers, hinside⟩
    have hrounds := congrArg List.length hnumbers
    rw [List.length_map, List.length_range] at hrounds
    exact ⟨_, (follows.query_eq_ok wf ⟨hcombined, hrounds, hinside⟩).2.2⟩
  · have hadmits := follows.admits_of_query wf answered
    obtain ⟨hcount, hcomplete, hquery⟩ := follows.query_eq_ok wf hadmits
    cases answered.symm.trans hquery
    have htarget : target = given.target parameters := by rw [sum, given.target_eq]
    rw [htarget, given.verifier_new,
      Verifier.verify_honestProof wf hgiven hcount hcomplete hadmits.2.2]
    exact congrArg Except.ok (decide_eq_true ⟨hadmits.2.2, rfl⟩)

/-- A run that is given up after its only round and repeated with other challenges. -/
theorem session_of_restart :
    ∃ start record reached proof, Prover.new? Parameters.twoPoints Instance.linear.publicPolys
        Instance.linear.secretPolys Instance.linear.blinding = .ok start ∧
      start.session {} [.combine [⟨1, 0, 2, 0⟩, ⟨0, 0, 0, 0⟩], .commitQuotients [3, 0],
        .combine [⟨1, 0, 2, 0⟩, ⟨0, 0, 0, 0⟩], .query [0], .foldRound 0 [5, 5],
        .commitQuotients [1], .commitQuotients [4, 6], .foldRound 0 [2, 2],
        .combine [⟨1, 1, 0, 0⟩, ⟨0, 2, 0, 1⟩], .foldRound 1 [2, 2], .foldRound 0 [7, 8],
        .foldRound 0 [9, 9], .query [32]] = (record, reached) ∧
      reached.query [9, 1, 9] = .ok proof ∧
      (Verifier.new Parameters.twoPoints Instance.linear.publicPolys 22).verify proof
          (.ofRounds [4, 6] [⟨1, 1, 0, 0⟩, ⟨0, 2, 0, 1⟩] [[7, 8]]) [9, 1, 9] = .ok true := by
  have hwf := (Parameters.wellFormed_of_accepted Parameters.new?_twoPoints).1
  have hstarted := (new?_eq_ok_iff hwf).mpr ⟨Instance.wellFormed_linear, rfl⟩
  have hsum := Instance.target_linear.symm.trans (Instance.linear.target_eq Parameters.twoPoints)
  generalize hcalls : ([.combine [⟨1, 0, 2, 0⟩, ⟨0, 0, 0, 0⟩], .commitQuotients [3, 0],
    .combine [⟨1, 0, 2, 0⟩, ⟨0, 0, 0, 0⟩], .query [0], .foldRound 0 [5, 5],
    .commitQuotients [1], .commitQuotients [4, 6], .foldRound 0 [2, 2],
    .combine [⟨1, 1, 0, 0⟩, ⟨0, 2, 0, 1⟩], .foldRound 1 [2, 2], .foldRound 0 [7, 8],
    .foldRound 0 [9, 9], .query [32]] : List (Call BabyBear)) = calls
  have hrecord : ((initial Parameters.twoPoints Instance.linear).session {} calls).1 =
      ⟨some [4, 6], some [⟨1, 1, 0, 0⟩, ⟨0, 2, 0, 1⟩], [([7, 8], 0)]⟩ := by
    rw [(session_follows hwf .untouched calls).2, ← hcalls]
    rfl
  obtain ⟨reached, hreached⟩ : ∃ reached, (initial Parameters.twoPoints Instance.linear).session {}
      calls = (⟨some [4, 6], some [⟨1, 1, 0, 0⟩, ⟨0, 2, 0, 1⟩], [([7, 8], 0)]⟩, reached) :=
    ⟨_, Prod.ext hrecord rfl⟩
  obtain ⟨-, -, -, hquery, haccepts⟩ :=
    session_of_started Parameters.new?_twoPoints hstarted hsum hreached
  obtain ⟨proof, hproof⟩ := (hquery [9, 1, 9]).mpr ⟨rfl, rfl, rfl, by decide⟩
  exact ⟨_, _, reached, proof, hstarted, hreached, hproof, haccepts _ proof hproof⟩

end Prover
end Sumcheck
end OracleProofs

/-
# Sessions with the prover

A prover can be called in any order: rounds may be asked for too early or twice,
positions before the last round is folded, and whole proofs in between. Whatever the
calls, its state is the one that an honest run reaches with the challenges it accepted
so far; every other call is refused for a reason that names the round, the number of
challenges or the position, and never for one of a domain or a commitment.
-/

import Mathlib
import OracleProofs.Proofs.Fri.Query

namespace OracleProofs
namespace Fri

open Polynomial

/-- What a prover can be asked for. -/
inductive Call (F : Type) where
  | foldRound (round : ℕ) (challenge : F)
  | query (positions : List ℕ)
  | prove (challenges : List F) (positions : List ℕ)

/-- What a prover answers if it does not refuse. -/
inductive Answer (F : Type) where
  | message (message : Message F)
  | proof (proof : Proof F)

/-- The positions that a call asks for. -/
def Call.positions {F : Type} : Call F → List ℕ
  | .foldRound _ _ => []
  | .query positions => positions
  | .prove _ positions => positions

variable {F : Type} [FiniteField F]

/-- The layers hold a word and what it folds to by challenges, one word behind the other.
The last challenge leaves no layer, because the word that it folds to is sent as a
polynomial. -/
structure LayersHold (rounds : List (Round F)) (layers : Array (Layer F)) (word : Array F)
    (challenges : List F) : Prop where
  size : layers.size = min (challenges.length + 1) rounds.length
  first : ∃ tree?, layers[0]? = some ⟨word, tree?⟩
  folds : ∀ (place : ℕ) (round : Round F) (challenge : F) (layer next : Layer F),
    rounds[place]? = some round → challenges[place]? = some challenge →
    layers[place]? = some layer → layers[place + 1]? = some next →
      round.foldWord? layer.codeword challenge = .ok next.codeword

namespace Prover

/-- Answers a call. -/
def answer (prover : Prover F) : Call F → Except FriError (Answer F) × Prover F
  | .foldRound round challenge =>
      ((prover.foldRound round challenge).1.map .message, (prover.foldRound round challenge).2)
  | .query positions => ((prover.query positions).map .proof, prover)
  | .prove challenges positions =>
      ((prover.prove challenges positions).1.map .proof, (prover.prove challenges positions).2)

/-- The challenges of the rounds that are folded if rounds are folded from `round` on until
one fails. -/
def acceptedFrom (prover : Prover F) (round : ℕ) : List F → List F
  | [] => []
  | challenge :: rest =>
      match prover.foldRound round challenge with
      | (.ok _, prover) => challenge :: prover.acceptedFrom (round + 1) rest
      | (.error _, _) => []

/-- The challenges of the rounds that are folded while a call is answered. -/
def accepted (prover : Prover F) : Call F → List F
  | .foldRound round challenge => prover.acceptedFrom round [challenge]
  | .query _ => []
  | .prove challenges _ =>
      if challenges.length = prover.parameters.roundCount then prover.acceptedFrom 0 challenges
      else []

/-- The challenges that are accepted while calls are answered, and the prover at the end. -/
def session (prover : Prover F) : List (Call F) → List F × Prover F
  | [] => ([], prover)
  | call :: rest =>
      (prover.accepted call ++ ((prover.answer call).2.session rest).1,
        ((prover.answer call).2.session rest).2)

variable [LawfulField F] {parameters : Parameters F} {p : F[X]} {done : List F}

theorem layersHold_after (wf : parameters.WellFormed) (p : F[X]) (done : List F) :
    LayersHold parameters.rounds (after parameters p done).layers
      (parameters.initialDomain.wordOf p) done where
  size := by
    rw [after, List.size_toArray, length_layersAfter]
  first := by
    obtain ⟨round, rest, next, hrounds, hdomain, -, -, -⟩ := wf.exists_first
    obtain ⟨tree?, hlayer⟩ := getElem?_layersAfter parameters.oracle
      (by rw [hrounds]; rfl : parameters.rounds[0]? = some round) done.length.zero_le p
    rw [List.take_zero, foldedBy_nil, ← hdomain] at hlayer
    exact ⟨tree?, List.getElem?_toArray.trans hlayer⟩
  folds := by
    intro place round challenge layer next hround hchallenge hlayer hnext
    have hdone : place < done.length := (List.getElem?_eq_some_iff.mp hchallenge).1
    have hinside : place + 1 < parameters.rounds.length := by
      have hlast := (Array.getElem?_eq_some_iff.mp hnext).1
      rw [after, List.size_toArray, length_layersAfter] at hlast
      exact hlast.trans_le (min_le_right _ _)
    have hfollowing := List.getElem?_eq_getElem hinside
    obtain ⟨tree?, hcurrent⟩ := getElem?_layersAfter parameters.oracle hround hdone.le p
    obtain ⟨later?, hlater⟩ := getElem?_layersAfter parameters.oracle hfollowing hdone p
    rw [after, List.getElem?_toArray] at hlayer hnext
    cases hlayer.symm.trans hcurrent
    cases hnext.symm.trans hlater
    have htake : done.take (place + 1) = done.take place ++ [challenge] := by
      rw [List.take_add_one, hchallenge, Option.toList_some]
    have hlength : (done.take place).length = place := List.length_take_of_le hdone.le
    rw [htake, foldedBy_append (by rwa [hlength])]
    exact (wf.chain.foldsTo hround (Parameters.getElem?_domains hfollowing)).foldWord?_wordOf _
      challenge

/-- Nothing happens if a round is folded out of turn. -/
theorem foldRound_after_of_not_pending (room : done.length ≤ parameters.roundCount) {round : ℕ}
    (outOfTurn : ¬(round = done.length ∧ round < parameters.roundCount)) (challenge : F) :
    (after parameters p done).foldRound round challenge =
      (.error (.roundOrder round done.length), after parameters p done) := by
  rw [foldRound, pendingRound_after room]
  by_cases hround : round = done.length
  · have hlast : parameters.rounds[round]? = none :=
      List.getElem?_eq_none (not_lt.mp fun hinside => outOfTurn ⟨hround, hinside⟩)
    rw [if_neg (not_not.mpr hround), foldPending?, pendingRound_after room]
    simp only [after, hlast]
  · rw [if_pos hround]

/-- Before the last round no queries are answered. -/
theorem query_after_of_pending (pending : done.length < parameters.roundCount)
    (positions : List ℕ) :
    (after parameters p done).query positions =
      .error (.roundOrder parameters.roundCount done.length) := by
  have hpending := pendingRound_after (p := p) pending.le
  have hfinal : (after parameters p done).finalPolynomial? = none := if_neg pending.ne
  simp only [query, hfinal, hpending]
  rfl

/-- The first position outside the word is refused. -/
theorem query_after_of_outside (count : done.length = parameters.roundCount)
    {positions : List ℕ}
    (outside : ¬∀ position ∈ positions, position < parameters.codewordLength) :
    ∃ position, positions.find? (parameters.codewordLength ≤ ·) = some position ∧
      (after parameters p done).query positions =
        .error (.queryPosition position parameters.codewordLength) := by
  have hfinal : (after parameters p done).finalPolynomial? =
      some (finalCoefficients parameters (foldedBy parameters.rounds done p)) := if_pos count
  have hparameters : (after parameters p done).parameters = parameters := rfl
  cases hfind : positions.find? (parameters.codewordLength ≤ ·) with
  | none =>
      refine absurd (fun position hmem => ?_) outside
      simpa using List.find?_eq_none.mp hfind position hmem
  | some position =>
      refine ⟨position, rfl, ?_⟩
      simp only [query, hfinal, hparameters, hfind]
      rfl

theorem foldAll_after_nil (wf : parameters.WellFormed) (p : F[X]) {challenges : List F}
    (count : challenges.length = parameters.roundCount) :
    (after parameters p []).foldAll 0 challenges = (.ok (), after parameters p challenges) := by
  have hfold := foldAll_after wf p [] challenges (by simp [count])
  rwa [List.length_nil, List.nil_append] at hfold

/-- Folding all rounds and querying, from a prover that has folded nothing. -/
theorem prove_after_nil (wf : parameters.WellFormed) (p : F[X]) {challenges : List F}
    (count : challenges.length = parameters.roundCount) (positions : List ℕ) :
    (after parameters p []).prove challenges positions =
      ((after parameters p challenges).query positions, after parameters p challenges) := by
  have hcount : ¬challenges.length ≠ (after parameters p []).parameters.roundCount :=
    not_not.mpr count
  rw [prove, if_neg hcount, foldAll_after_nil wf p count]

/-- A prover that has folded something does not start over. -/
theorem prove_after_of_started (wf : parameters.WellFormed)
    (room : done.length ≤ parameters.roundCount) (started : done ≠ []) {challenges : List F}
    (count : challenges.length = parameters.roundCount) (positions : List ℕ) :
    (after parameters p done).prove challenges positions =
      (.error (.roundOrder 0 done.length), after parameters p done) := by
  have hcount : ¬challenges.length ≠ (after parameters p done).parameters.roundCount :=
    not_not.mpr count
  rw [prove, if_neg hcount]
  cases challenges with
  | nil => exact absurd count wf.roundCount_pos.ne
  | cons challenge rest =>
      have hturn : ¬(0 = done.length ∧ 0 < parameters.roundCount) := fun hturn =>
        started (List.length_eq_zero_iff.mp hturn.1.symm)
      have hrefused := foldRound_after_of_not_pending (p := p) room hturn challenge
      rw [foldAll, hrefused]

/-- A list of challenges of the wrong length is refused. -/
theorem prove_after_of_length_ne {challenges : List F}
    (count : challenges.length ≠ parameters.roundCount) (positions : List ℕ) :
    (after parameters p done).prove challenges positions =
      (.error (.foldingChallenges parameters.roundCount challenges.length),
        after parameters p done) := by
  rw [prove]
  exact if_pos count

theorem acceptedFrom_after (wf : parameters.WellFormed) (p : F[X]) (done rest : List F)
    (room : (done ++ rest).length ≤ parameters.roundCount) :
    (after parameters p done).acceptedFrom done.length rest = rest := by
  induction rest generalizing done with
  | nil => rfl
  | cons challenge rest ih =>
      have hpending : done.length < parameters.roundCount := by
        rw [List.length_append, List.length_cons] at room
        omega
      obtain ⟨message, hstep⟩ := foldRound_after wf (p := p) hpending challenge
      have hrest := ih (done ++ [challenge]) (by simpa using room)
      rw [List.length_append, List.length_singleton] at hrest
      rw [acceptedFrom, hstep]
      exact congrArg (challenge :: ·) hrest

theorem acceptedFrom_after_of_not_pending (room : done.length ≤ parameters.roundCount)
    {round : ℕ} (outOfTurn : ¬(round = done.length ∧ round < parameters.roundCount))
    (challenges : List F) : (after parameters p done).acceptedFrom round challenges = [] := by
  cases challenges with
  | nil => rfl
  | cons challenge rest =>
      rw [acceptedFrom, foldRound_after_of_not_pending room outOfTurn]

/-- Every call leads to the state after the challenges that it accepts. -/
theorem answer_after (wf : parameters.WellFormed) (p : F[X])
    (room : done.length ≤ parameters.roundCount) (call : Call F) :
    ((after parameters p done).answer call).2 =
        after parameters p (done ++ (after parameters p done).accepted call) ∧
      (done ++ (after parameters p done).accepted call).length ≤ parameters.roundCount := by
  cases call with
  | query positions => simpa [answer, accepted] using room
  | foldRound round challenge =>
      rw [answer, accepted]
      by_cases hturn : round = done.length ∧ round < parameters.roundCount
      · obtain ⟨rfl, hpending⟩ := hturn
        have hroom : (done ++ [challenge]).length ≤ parameters.roundCount := by
          rwa [List.length_append, List.length_singleton]
        obtain ⟨message, hfold⟩ := foldRound_after wf (p := p) hpending challenge
        rw [acceptedFrom_after wf p done _ hroom, hfold]
        exact ⟨rfl, hroom⟩
      · rw [acceptedFrom_after_of_not_pending room hturn,
          foldRound_after_of_not_pending room hturn, List.append_nil]
        exact ⟨rfl, room⟩
  | prove challenges positions =>
      have hparameters : (after parameters p done).parameters = parameters := rfl
      rw [answer, accepted, hparameters]
      by_cases hcount : challenges.length = parameters.roundCount
      · rw [if_pos hcount]
        by_cases hstarted : done = []
        · have hroom : ([] ++ challenges).length ≤ parameters.roundCount := by
            rw [List.nil_append, hcount]
          have haccepted := acceptedFrom_after wf p [] challenges hroom
          rw [List.length_nil] at haccepted
          rw [hstarted, prove_after_nil wf p hcount, haccepted]
          exact ⟨rfl, hroom⟩
        · have hturn : ¬(0 = done.length ∧ 0 < parameters.roundCount) := fun hturn =>
            hstarted (List.length_eq_zero_iff.mp hturn.1.symm)
          rw [prove_after_of_started wf room hstarted hcount,
            acceptedFrom_after_of_not_pending room hturn, List.append_nil]
          exact ⟨rfl, room⟩
      · rw [if_neg hcount, prove_after_of_length_ne hcount, List.append_nil]
        exact ⟨rfl, room⟩

/-- A session ends in the state after all challenges that it accepts. -/
theorem session_after (wf : parameters.WellFormed) (p : F[X])
    (room : done.length ≤ parameters.roundCount) (calls : List (Call F)) :
    ((after parameters p done).session calls).2 =
        after parameters p (done ++ ((after parameters p done).session calls).1) ∧
      (done ++ ((after parameters p done).session calls).1).length ≤ parameters.roundCount := by
  induction calls generalizing done with
  | nil => simpa [session] using room
  | cons call rest ih =>
      obtain ⟨hstate, hroom⟩ := answer_after wf p room call
      rw [session, hstate, ← List.append_assoc]
      exact ih hroom

/-- Exactly the queries inside the word are answered, once all rounds are folded. -/
theorem query_after_eq_ok_iff (wf : parameters.WellFormed) (p : F[X])
    (room : done.length ≤ parameters.roundCount) (positions : List ℕ) :
    (∃ proof, (after parameters p done).query positions = .ok proof) ↔
      done.length = parameters.roundCount ∧
        ∀ position ∈ positions, position < parameters.codewordLength := by
  constructor
  · rintro ⟨proof, hproof⟩
    by_contra hrefused
    by_cases hcount : done.length = parameters.roundCount
    · obtain ⟨position, -, herror⟩ := query_after_of_outside (p := p) hcount
        fun inside => hrefused ⟨hcount, inside⟩
      cases hproof.symm.trans herror
    · cases hproof.symm.trans (query_after_of_pending (lt_of_le_of_ne room hcount) positions)
  · rintro ⟨hcount, hinside⟩
    exact ⟨_, query_after wf hcount hinside⟩

theorem error_of_query_after (wf : parameters.WellFormed)
    (room : done.length ≤ parameters.roundCount) {positions : List ℕ} {error : FriError}
    (refused : (after parameters p done).query positions = .error error) :
    (∃ requested expected, error = .roundOrder requested expected) ∨
      ∃ position size, error = .queryPosition position size := by
  by_cases hcount : done.length = parameters.roundCount
  · by_cases hinside : ∀ position ∈ positions, position < parameters.codewordLength
    · cases refused.symm.trans (query_after wf hcount hinside)
    · obtain ⟨position, -, herror⟩ := query_after_of_outside (p := p) hcount hinside
      cases refused.symm.trans herror
      exact .inr ⟨_, _, rfl⟩
  · cases refused.symm.trans (query_after_of_pending (lt_of_le_of_ne room hcount) positions)
    exact .inl ⟨_, _, rfl⟩

/-- The reason of a refusal is a round out of turn, a wrong number of challenges or a
position outside the word. -/
theorem error_of_answer_after (wf : parameters.WellFormed)
    (room : done.length ≤ parameters.roundCount) {call : Call F} {error : FriError}
    (refused : ((after parameters p done).answer call).1 = .error error) :
    (∃ requested expected, error = .roundOrder requested expected) ∨
      (∃ position size, error = .queryPosition position size) ∨
      ∃ expected found, error = .foldingChallenges expected found := by
  cases call with
  | query positions =>
      exact (error_of_query_after wf room (map_eq_error_iff.mp refused)).imp_right .inl
  | foldRound round challenge =>
      have hfold := map_eq_error_iff.mp refused
      by_cases hturn : round = done.length ∧ round < parameters.roundCount
      · obtain ⟨rfl, hpending⟩ := hturn
        obtain ⟨message, hanswer⟩ := foldRound_after wf (p := p) hpending challenge
        rw [hanswer] at hfold
        cases hfold
      · rw [foldRound_after_of_not_pending room hturn] at hfold
        cases hfold
        exact .inl ⟨_, _, rfl⟩
  | prove challenges positions =>
      have hprove := map_eq_error_iff.mp refused
      by_cases hcount : challenges.length = parameters.roundCount
      · by_cases hstarted : done = []
        · rw [hstarted, prove_after_nil wf p hcount] at hprove
          exact (error_of_query_after wf hcount.le hprove).imp_right .inl
        · rw [prove_after_of_started wf room hstarted hcount] at hprove
          cases hprove
          exact .inl ⟨_, _, rfl⟩
      · rw [prove_after_of_length_ne hcount] at hprove
        cases hprove
        exact .inr (.inr ⟨_, _, rfl⟩)

/-- Every proof is the one for the challenges that were accepted before the call and by it. -/
theorem proof_of_answer_after (wf : parameters.WellFormed)
    (room : done.length ≤ parameters.roundCount) {call : Call F} {proof : Proof F}
    (answered : ((after parameters p done).answer call).1 = .ok (.proof proof)) :
    ((after parameters p []).prove (done ++ (after parameters p done).accepted call)
      call.positions).1 = .ok proof := by
  cases call with
  | foldRound round challenge =>
      obtain ⟨_, -, hmessage⟩ := map_eq_ok_iff.mp answered
      cases hmessage
  | query positions =>
      obtain ⟨_, hquery, hproof⟩ := map_eq_ok_iff.mp answered
      cases hproof
      obtain ⟨hcount, -⟩ := (query_after_eq_ok_iff wf p room positions).mp ⟨proof, hquery⟩
      rw [accepted, List.append_nil, prove_after_nil wf p hcount]
      exact hquery
  | prove challenges positions =>
      obtain ⟨_, hprove, hproof⟩ := map_eq_ok_iff.mp answered
      cases hproof
      by_cases hcount : challenges.length = parameters.roundCount
      · by_cases hstarted : done = []
        · have haccepted := acceptedFrom_after wf p [] challenges (by simp [hcount])
          have hparameters : (after parameters p []).parameters = parameters := rfl
          rw [hstarted] at hprove ⊢
          rw [accepted, hparameters, if_pos hcount, List.nil_append]
          rw [List.length_nil] at haccepted
          rw [haccepted]
          exact hprove
        · rw [prove_after_of_started wf room hstarted hcount] at hprove
          cases hprove
      · rw [prove_after_of_length_ne hcount] at hprove
        cases hprove

/-- Whatever calls a prover has answered, its layers hold the first word and what it
folds to by the challenges that were accepted. It folds exactly the round that is next,
answers exactly queries inside the word after the last round, and is unchanged when it
refuses either; it never refuses because of a domain or a commitment. Every proof it sends
is the one that a fresh prover sends for the accepted challenges. -/
theorem session_of_accepted {domain : EvaluationDomain F} {degreeBound : ℕ}
    {localization : List ℕ} (accepted : Parameters.new? domain degreeBound localization =
      .ok parameters)
    (oracle : InitialOracle) {word : Array F} (size : word.size = parameters.codewordLength) :
    ∃ start, ofBitReversed? (parameters.withOracle oracle) word = .ok start ∧
      ofEvaluations? (parameters.withOracle oracle)
        (reverseOrder parameters.initialDomain.dimension word) = .ok start ∧
      ∀ calls done reached, start.session calls = (done, reached) →
        LayersHold parameters.rounds reached.layers word done ∧
        (∀ round challenge,
          ((∃ message, (reached.foldRound round challenge).1 = .ok message) ↔
            round = done.length ∧ round < parameters.roundCount) ∧
          (¬(round = done.length ∧ round < parameters.roundCount) →
            reached.foldRound round challenge =
              (.error (.roundOrder round done.length), reached))) ∧
        (∀ positions,
          ((∃ proof, reached.query positions = .ok proof) ↔
            done.length = parameters.roundCount ∧
              ∀ position ∈ positions, position < parameters.codewordLength) ∧
          (reached.answer (.query positions)).2 = reached) ∧
        (∀ call error, (reached.answer call).1 = .error error →
          (∀ cause, error ≠ .domain cause) ∧ ∀ cause, error ≠ .merkle cause) ∧
        ∀ call proof, (reached.answer call).1 = .ok (.proof proof) →
          (start.prove (done ++ reached.accepted call) call.positions).1 = .ok proof := by
  have wf := (Parameters.wellFormed_of_accepted accepted).1.withOracle oracle
  obtain ⟨p, -, rfl⟩ := parameters.initialDomain.exists_wordOf size
  refine ⟨_, ofBitReversed?_wordOf wf p, ?_, fun calls done reached hsession => ?_⟩
  · rw [Coset.reverseOrder_wordOf]
    exact ofEvaluations?_valuesOf wf p
  · have hempty : ([] : List F).length ≤ (parameters.withOracle oracle).roundCount :=
      Nat.zero_le _
    obtain ⟨hstate, hroom⟩ := session_after wf p hempty calls
    rw [hsession, List.nil_append] at hstate hroom
    obtain rfl : reached = after (parameters.withOracle oracle) p done := hstate
    refine ⟨layersHold_after wf p done, fun round challenge => ⟨⟨?_, ?_⟩, ?_⟩,
      fun positions => ⟨query_after_eq_ok_iff wf p hroom positions, rfl⟩, ?_,
      fun call proof => proof_of_answer_after wf hroom⟩
    · rintro ⟨message, hmessage⟩
      by_contra hturn
      rw [foldRound_after_of_not_pending hroom hturn] at hmessage
      cases hmessage
    · rintro ⟨rfl, hpending⟩
      obtain ⟨message, hfold⟩ := foldRound_after wf (p := p) hpending challenge
      exact ⟨message, congrArg Prod.fst hfold⟩
    · exact fun hturn => foldRound_after_of_not_pending hroom hturn challenge
    · intro call error refused
      obtain ⟨_, _, rfl⟩ | ⟨_, _, rfl⟩ | ⟨_, _, rfl⟩ := error_of_answer_after wf hroom refused <;>
        exact ⟨fun _ => nofun, fun _ => nofun⟩

/-- Calls out of turn between two halvings of a virtual word on eight points. -/
theorem session_of_two_halvings :
    ∃ start reached, ofBitReversed? (Parameters.twoHalvings.withOracle .virtual)
        #[5, 0, 1, 1, 0, 1, 1, 0] = .ok start ∧
      start.session [.query [0], .foldRound 1 4, .foldRound 0 3, .foldRound 0 7,
        .prove [6, 6] [2], .foldRound 1 1, .foldRound 2 1, .query [8]] = ([3, 1], reached) ∧
      ∃ proof, reached.query [6, 1, 6] = .ok proof ∧
        (start.prove [3, 1] [6, 1, 6]).1 = .ok proof := by
  obtain ⟨start, hstart, -, hsession⟩ := session_of_accepted Parameters.new?_twoHalvings .virtual
    (rfl : (#[5, 0, 1, 1, 0, 1, 1, 0] : Array BabyBear).size = _)
  generalize hcalls : ([.query [0], .foldRound 1 4, .foldRound 0 3, .foldRound 0 7,
    .prove [6, 6] [2], .foldRound 1 1, .foldRound 2 1, .query [8]] :
      List (Call BabyBear)) = calls
  have hdone : (ofBitReversed? (Parameters.twoHalvings.withOracle .virtual)
      #[5, 0, 1, 1, 0, 1, 1, 0]).map (fun start => (start.session calls).1) = .ok [3, 1] := by
    rw [← hcalls]
    decide +kernel
  obtain ⟨other, hother, haccepted⟩ := map_eq_ok_iff.mp hdone
  cases hstart.symm.trans hother
  obtain ⟨reached, hreached⟩ : ∃ reached, start.session calls = ([3, 1], reached) :=
    ⟨_, Prod.ext haccepted rfl⟩
  obtain ⟨-, -, hquery, -, hproofs⟩ := hsession calls _ _ hreached
  obtain ⟨proof, hproof⟩ := (hquery [6, 1, 6]).1.mpr ⟨rfl, by decide⟩
  exact ⟨start, reached, hstart, hreached, proof, hproof,
    hproofs (.query [6, 1, 6]) proof (congrArg (Except.map Answer.proof) hproof)⟩

end Prover
end Fri
end OracleProofs

/-
# A whole run of the sumcheck

The verifier draws the challenges of each round after the prover has answered
the previous one, and the queries last. A run that fails leaves the prover where
it stopped.
-/

import OracleProofs.Sumcheck.Prover
import OracleProofs.Sumcheck.Verifier

namespace OracleProofs
namespace Sumcheck

/-- What a completed run leaves behind. -/
structure Interaction (F : Type) where
  challenges : Challenges F
  queries : List Nat
  proof : Proof F

/-- Goes on with the answer of a step. Nothing follows a step that failed, and
what the step acts on stays as the step left it. -/
def andThen {ε α β σ : Type} (step : Except ε α × σ) (next : α → σ → Except ε β × σ) :
    Except ε β × σ :=
  match step with
  | (.ok answer, state) => next answer state
  | (.error error, state) => (.error error, state)

namespace Interaction

variable {F : Type} [FiniteField F] [Drawable F] {S : Type} [RandomSource S]

/-- A drawing of the verifier, as a step that leaves the prover alone. -/
def drawn {α : Type} (drawing : Except Fault α) (prover : Prover F) :
    Except SumcheckError α × Prover F :=
  (drawing.mapError .ofFault, prover)

/-- Folds `count` rounds from `round` on and answers with the challenges drawn
for them. -/
def runFolding (verifier : Verifier F) : (count round : Nat) → Prover F → S →
    Except SumcheckError (List (List F) × S) × Prover F
  | 0, _, prover, source => (.ok ([], source), prover)
  | count + 1, round, prover, source =>
      andThen (drawn (verifier.sampleFolding? source) prover) fun (challenges, source) prover =>
      andThen (prover.foldRound round challenges) fun _ prover =>
      andThen (runFolding verifier count (round + 1) prover source) fun (later, source) prover =>
        (.ok (challenges :: later, source), prover)

/-- Draws the queries and answers them. -/
def runQueries (verifier : Verifier F) (queryCount : Nat) (challenges : Challenges F)
    (prover : Prover F) (source : S) : Except SumcheckError (Interaction F) × Prover F :=
  andThen (drawn (verifier.sampleQueries? queryCount source) prover) fun (queries, _) prover =>
    ((prover.query queries).map fun proof => { challenges, queries, proof }, prover)

/-- Runs prover and verifier with challenges drawn from a source. -/
def run (prover : Prover F) (verifier : Verifier F) (queryCount : Nat) (source : S) :
    Except SumcheckError (Interaction F) × Prover F :=
  andThen (drawn (verifier.sampleBatching? source) prover) fun (batching, source) prover =>
  andThen (prover.commitQuotients batching) fun _ prover =>
  andThen (drawn (verifier.sampleCombination? source) prover) fun (combination, source) prover =>
  andThen (prover.combine combination) fun _ prover =>
  andThen (runFolding verifier verifier.parameters.fri.roundCount 0 prover source)
    fun (folding, source) prover =>
      runQueries verifier queryCount (.ofRounds batching combination folding) prover source

end Interaction
end Sumcheck
end OracleProofs

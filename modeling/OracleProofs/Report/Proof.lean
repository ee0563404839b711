/-
# Reports on polynomials, domains and proofs

The paths of the openings inside of a proof are long and many, so their digests
are shortened there.
-/

import OracleProofs.Report.Basic
import OracleProofs.Sumcheck.Combination

namespace OracleProofs
namespace Report

variable {F : Type} [FiniteField F] [ReportableField F]

instance : Reportable (DensePoly F) := ⟨fun p => report p.coefficients⟩

instance : Reportable (Quotient F) :=
  ⟨fun division => record
    [("quotient", report division.quotient), ("remainder", report division.remainder)]⟩

instance : Reportable (Linearized F) :=
  ⟨fun p => record [("constant", ofElement p.constant), ("linear", report p.linear.toArray)]⟩

/-- The degree and the terms of a linearized polynomial. -/
def linearizedShape? (p : Linearized F) : Except Fault Report := do
  let terms := (← p.terms?).map fun (exponent, coefficient) =>
    list [number exponent, ofElement coefficient]
  return record
    [("degree", number (← p.degree?)), ("zero", flag p.isZero), ("terms", list terms)]

/-- The degree of a vanishing polynomial and whether it is monic. -/
def vanishingShape? (z : VanishingPolynomial F) : Except Fault (List (String × Report)) := do
  return [("degree", number (← z.degree?)), ("monic", flag (← z.isMonic?))]

/-- The shape of a vanishing polynomial, its kind and its coefficients. -/
def ofVanishing? (z : VanishingPolynomial F) : Except Fault Report := do
  let kind := match z with
    | .powerMinus _ _ => "multiplicative"
    | .linearized _ => "affine"
  return record
    ((← vanishingShape? z) ++ [("kind", text kind), ("poly", report (← z.toDense?))])

instance : Reportable (Coset F) :=
  ⟨fun coset => record [("size", number coset.size), ("dimension", number coset.dimension),
    ("shift", ofElement coset.shift), ("generator", ofElement coset.generator)]⟩

instance : Reportable (EvaluationDomain F) where
  report domain :=
    record <| [("size", number domain.size), ("dimension", number domain.dimension),
      ("shift", ofElement domain.shift)] ++
      match domain with
      | .coset coset => [("multiplicative", flag true), ("generator", ofElement coset.generator)]
      | .subspace space =>
          [("multiplicative", flag false), ("basis", report space.basis.toArray)]

/-- An opening whose path is written by `digest`. -/
def ofOpening (digest : Digest → Report) (opening : Merkle.Opening F) : Report :=
  record [("index", number opening.index), ("values", report opening.values),
    ("path", list (opening.path.map digest))]

instance : Reportable (Merkle.Opening F) := ⟨ofOpening shortDigest⟩

/-- The shape of a committed tree. -/
def treeShape (tree : Merkle.Tree F) : List (String × Report) :=
  [("root", report tree.root), ("depth", number tree.depth), ("leaves", number tree.leafCount),
    ("width", number tree.leafWidth)]

/-- The contents of a batch of openings. -/
def batchFields (batch : Merkle.Batch F) : List (String × Report) :=
  [("root", report batch.root), ("leaves", number batch.leafCount),
    ("width", number batch.leafWidth), ("queries", report batch.queries),
    ("path_length", number batch.pathLength), ("field_elements", number batch.elementCount),
    ("openings", report batch.openings)]

/-- The contents of parameters of the low-degree test. -/
def parameterFields (parameters : Fri.Parameters F) : List (String × Report) :=
  let oracle := match parameters.oracle with
    | .committed => "Committed"
    | .virtual => "Virtual"
  [("rounds", number parameters.roundCount), ("localization", report parameters.localization),
    ("degree_bound", number parameters.degreeBound),
    ("final_degree_bound", number parameters.finalDegreeBound),
    ("codeword_length", number parameters.codewordLength), ("oracle", text oracle),
    ("coset_sizes", report (parameters.rounds.map Fri.Round.cosetSize)),
    ("domains", report parameters.domains), ("final_domain", report parameters.finalDomain)]

instance : Reportable (Fri.Message F) where
  report
    | .commitment root => record [("root", report root)]
    | .finalPolynomial coefficients => record [("final", report coefficients)]

instance : Reportable (Fri.LayerProof F) :=
  ⟨fun layer => record [("round", number layer.round), ("root", report layer.root),
    ("openings", report layer.openings)]⟩

instance : Reportable (Fri.Proof F) :=
  ⟨fun proof => record [("layers", report proof.layers), ("final", report proof.finalPolynomial),
    ("digests", number proof.digestCount), ("field_elements", number proof.elementCount)]⟩

instance : Reportable (Sumcheck.Parameters F) :=
  ⟨fun parameters => record [("summation", report parameters.summation),
    ("codeword", report parameters.codewordDomain),
    ("fri", record (parameterFields parameters.fri)),
    ("repetitions", number parameters.repetitions),
    ("degree_bound", number parameters.degreeBound),
    ("codeword_length", number parameters.codewordLength),
    ("coset_size", number parameters.cosetSize)]⟩

instance : Reportable (Sumcheck.Combination F) :=
  ⟨fun combination => report combination.toArray⟩

instance : Reportable (Sumcheck.RepetitionChallenges F) :=
  ⟨fun challenges => record [("batching", ofElement challenges.batching),
    ("combination", report challenges.combination),
    ("folding", report challenges.folding.toArray)]⟩

instance : Reportable (Sumcheck.Proof F) :=
  ⟨fun proof => record [("secret_root", report proof.firstMessage.secretRoot),
    ("blinding_sum", ofElement proof.firstMessage.blindingSum),
    ("quotient_root", report proof.quotientRoot),
    ("secret", record (batchFields proof.secretOpenings)),
    ("quotient", record (batchFields proof.quotientOpenings)), ("fri", report proof.friProofs),
    ("digests", number proof.digestCount), ("field_elements", number proof.elementCount)]⟩

end Report
end OracleProofs

/-
# Messages and proofs of the low-degree test

The prover answers each folding challenge with a commitment to the folded word,
and the last one with the coefficients of the final polynomial. A proof consists
of the openings of all committed words and the final polynomial.
-/

import OracleProofs.Binary.Word
import OracleProofs.Merkle.Tree

namespace OracleProofs
namespace Fri

/-- What the prover sends after folding. -/
inductive Message (F : Type) where
  /-- A commitment to the folded word. -/
  | commitment (root : Merkle.Root)
  /-- The coefficients of the polynomial that the last word has as its values. -/
  | finalPolynomial (coefficients : Array F)

/-- The openings of one committed word: one per distinct queried leaf, sorted by
leaf. -/
structure LayerProof (F : Type) where
  round : Nat
  root : Merkle.Root
  openings : List (Merkle.Opening F)

/-- The openings of all committed words and the final polynomial. -/
structure Proof (F : Type) where
  layers : List (LayerProof F)
  finalPolynomial : Array F

namespace LayerProof

variable {F : Type}

/-- The opened values of a leaf. -/
def leaf? (layer : LayerProof F) (index : Nat) : Option (Array F) :=
  (layer.openings.find? fun opening => opening.index = index).map Merkle.Opening.values

/-- The number of digests: the root and all paths. -/
def digestCount (layer : LayerProof F) : Nat :=
  1 + total (fun opening => opening.path.length) layer.openings

/-- The number of opened values. -/
def elementCount (layer : LayerProof F) : Nat :=
  total (fun opening => opening.values.size) layer.openings

end LayerProof

namespace Proof

variable {F : Type}

/-- The number of digests. -/
def digestCount (proof : Proof F) : Nat :=
  total LayerProof.digestCount proof.layers

/-- The number of field elements. -/
def elementCount (proof : Proof F) : Nat :=
  total LayerProof.elementCount proof.layers + proof.finalPolynomial.size

end Proof
end Fri
end OracleProofs

/-
# Interactive oracle proofs

A low-degree test over two-adic cosets and a zero-knowledge sumcheck for inner
products of polynomials that is built on it, with everything they stand on:
finite fields, sparse and dense polynomials, evaluation domains with their
transforms, and Merkle commitments.
-/

import OracleProofs.Field.Extension
import OracleProofs.Fri.Prover
import OracleProofs.Fri.Verifier
import OracleProofs.Merkle.Tree
import OracleProofs.Polynomial.Product
import OracleProofs.Proofs.Field.Basic
import OracleProofs.Report.Proof
import OracleProofs.Sumcheck.Interaction
import OracleProofs.Proofs.Binary.Counting
import OracleProofs.Proofs.Binary.Reversal
import OracleProofs.Proofs.Domain.Transform
import OracleProofs.Proofs.Domain.Coset
import OracleProofs.Proofs.Digest.Collision
import OracleProofs.Proofs.Fault
import OracleProofs.Proofs.Fri.Parameters
import OracleProofs.Proofs.Fri.Geometry
import OracleProofs.Proofs.Fri.Fold
import OracleProofs.Proofs.Fri.Soundness
import OracleProofs.Proofs.Field.Prime
import OracleProofs.Proofs.Field.Quadratic
import OracleProofs.Proofs.Fri.Prover
import OracleProofs.Proofs.Fri.Query
import OracleProofs.Proofs.Fri.Completeness
import OracleProofs.Proofs.Sumcheck.Parameters
import OracleProofs.Proofs.Sumcheck.Combination
import OracleProofs.Proofs.Polynomial.Product
import OracleProofs.Proofs.Polynomial.Sparse
import OracleProofs.Proofs.Polynomial.Vanishing
import OracleProofs.Proofs.Sumcheck.Layout
import OracleProofs.Proofs.Sumcheck.Instance
import OracleProofs.Proofs.Sumcheck.Prover
import OracleProofs.Proofs.Sumcheck.Verifier
import OracleProofs.Proofs.Random.Source
import OracleProofs.Proofs.Sumcheck.Interaction
import OracleProofs.Proofs.Sumcheck.Completeness
import OracleProofs.Proofs.Merkle.Binding
import OracleProofs.Proofs.Fri.FullQuery
import OracleProofs.Proofs.Sumcheck.Claim
import OracleProofs.Proofs.Sumcheck.FalseClaim
import OracleProofs.Proofs.Sumcheck.LowDegree
import OracleProofs.Proofs.Sumcheck.Masking
import OracleProofs.Proofs.Sumcheck.Hiding
import OracleProofs.Proofs.Sumcheck.Meeting
import OracleProofs.Proofs.Fri.Oracle
import OracleProofs.Proofs.Fri.Session
import OracleProofs.Proofs.Sumcheck.Session
import OracleProofs.Proofs.Binary.Word
import OracleProofs.Proofs.Binary.InPlace
import OracleProofs.Proofs.Fri.Guarded
import OracleProofs.Proofs.Sumcheck.Guarded
import OracleProofs.Proofs.Sumcheck.Answers
import OracleProofs.Proofs.Merkle.Layout
import OracleProofs.Proofs.Merkle.Heap
import OracleProofs.Proofs.Field.Binary
import OracleProofs.Proofs.Fri.Acceptance
import OracleProofs.Proofs.Sumcheck.Acceptance
import OracleProofs.Proofs.Polynomial.Linearized
import OracleProofs.Proofs.Domain.Tower
import OracleProofs.Proofs.Domain.Subspace
import OracleProofs.Proofs.Domain.Basic
import OracleProofs.Proofs.Domain.Remainder
import OracleProofs.Proofs.Domain.Masking
import OracleProofs.Proofs.Polynomial.Expansion
import OracleProofs.Proofs.Polynomial.Division
import OracleProofs.Proofs.Domain.Doubling
import OracleProofs.Proofs.Domain.Regrouping
import OracleProofs.Proofs.Sumcheck.Columns
import OracleProofs.Proofs.Fri.Refusal

/-
# What a hash binds

The elements of a list and the two children of a node are hashed through encodings
of fixed width, so different lists of one length and different pairs of digests are
different byte strings. Nothing is assumed about the hash function: where two
different strings have the same digest, the statements below say so and name the
strings among which the two are found.
-/

import Mathlib
import OracleProofs.Digest.Basic
import OracleProofs.Proofs.Field.Laws

namespace OracleProofs

/-- Two of the strings are different and have the same digest. -/
def Collides (strings : List (List UInt8)) : Prop :=
  ∃ first ∈ strings, ∃ second ∈ strings, first ≠ second ∧ Sha256.hash first = Sha256.hash second

instance (strings : List (List UInt8)) : Decidable (Collides strings) :=
  inferInstanceAs (Decidable (∃ _ ∈ strings, ∃ _ ∈ strings, _))

theorem Collides.mono {strings others : List (List UInt8)} (collides : Collides strings)
    (subset : strings ⊆ others) : Collides others := by
  obtain ⟨first, hfirst, second, hsecond, hcollision⟩ := collides
  exact ⟨first, subset hfirst, second, subset hsecond, hcollision⟩

theorem Collides.cons_append_cons {strings others : List (List UInt8)} {first second : List UInt8}
    (collides : Collides (strings ++ others)) :
    Collides (first :: strings ++ second :: others) :=
  collides.mono (List.append_subset.mpr
    ⟨List.subset_append_of_subset_left _ (List.subset_cons_self _ _),
      List.subset_append_of_subset_right _ (List.subset_cons_self _ _)⟩)

/-- Strings with the same digest are equal, unless they collide. -/
theorem eq_or_collides {strings others : List (List UInt8)} {first second : List UInt8}
    (equal : Sha256.hash first = Sha256.hash second) :
    first = second ∨ Collides (first :: strings ++ second :: others) := by
  by_cases hequal : first = second
  · exact .inl hequal
  · exact .inr ⟨first, List.mem_append_left _ List.mem_cons_self, second,
      List.mem_append_right _ List.mem_cons_self, hequal, equal⟩

/-- Bytes determine an element, and all elements have equally many. This is all that
a commitment needs of the field, and it does not need the laws of arithmetic. -/
class FaithfulEncoding (F : Type) [FiniteField F] : Prop where
  encode_length (a b : F) : (FiniteField.encode a).length = (FiniteField.encode b).length
  encode_injective : Function.Injective (FiniteField.encode : F → List UInt8)

instance {F : Type} [FiniteField F] [LawfulField F] : FaithfulEncoding F where
  encode_length := LawfulField.encode_length
  encode_injective := LawfulField.encode_injective

theorem flatMap_encode_inj {F : Type} [FiniteField F] [FaithfulEncoding F] {left right : List F}
    (length : left.length = right.length)
    (equal : left.flatMap FiniteField.encode = right.flatMap FiniteField.encode) :
    left = right := by
  induction left generalizing right with
  | nil => exact (List.length_eq_zero_iff.mp length.symm).symm
  | cons a left ih =>
      cases right with
      | nil => cases length
      | cons b right =>
          rw [List.flatMap_cons, List.flatMap_cons] at equal
          obtain ⟨hhead, htail⟩ := List.append_inj equal (FaithfulEncoding.encode_length a b)
          rw [FaithfulEncoding.encode_injective hhead, ih (Nat.succ.inj length) htail]

/-- Lists of elements of one length are different byte strings. -/
theorem elementBytes_inj {F : Type} [FiniteField F] [FaithfulEncoding F]
    {first second : Array F} (size : first.size = second.size)
    (equal : elementBytes first = elementBytes second) : first = second :=
  Array.toList_inj.mp (flatMap_encode_inj size equal)

/-- Pairs of digests are different byte strings. -/
theorem pairBytes_inj {left right left' right' : Digest}
    (equal : pairBytes left right = pairBytes left' right') : left = left' ∧ right = right' := by
  have hdigest {first second : Digest} (bytes : first.bytes.toList = second.bytes.toList) :
      first = second := by
    cases first
    cases second
    exact congrArg Digest.mk (Vector.toList_inj.mp bytes)
  obtain ⟨hleft, hright⟩ := List.append_inj equal (by simp)
  exact ⟨hdigest hleft, hdigest hright⟩

end OracleProofs

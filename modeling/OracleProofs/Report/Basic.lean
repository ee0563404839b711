/-
# Reports

A report is a value made of numbers, texts, lists and named fields: what a
caller is shown of the objects of the library, in a form that any notation for
structured data can express. Field elements are shown as decimal texts, because
they outgrow machine words, and long lists of them by their ends and their hash.
-/

import OracleProofs.Digest.Basic
import OracleProofs.Field.Extension
import OracleProofs.Merkle.Tree
import OracleProofs.Error

namespace OracleProofs

/-- A structured description. -/
inductive Report where
  | absent
  | flag (value : Bool)
  | number (value : Nat)
  | text (value : String)
  | list (items : List Report)
  | record (fields : List (String × Report))
  deriving Inhabited

/-- The types whose values can be reported. -/
class Reportable (α : Type) where
  /-- The description of a value. -/
  report : α → Report

export Reportable (report)

namespace Report

instance : Reportable Report := ⟨id⟩

instance : Reportable Bool := ⟨flag⟩

instance : Reportable Nat := ⟨number⟩

instance : Reportable String := ⟨text⟩

instance {α : Type} [Reportable α] : Reportable (Option α) :=
  ⟨fun value? => value?.elim absent report⟩

instance {α : Type} [Reportable α] : Reportable (List α) :=
  ⟨fun values => list (values.map report)⟩

instance : Reportable Digest := ⟨fun digest => text digest.toHex⟩

/-- A digest by its first eight bytes. -/
def shortDigest (digest : Digest) : Report :=
  text (String.join ((digest.bytes.toList.take 8).map Digest.hexByte))

instance : Reportable Merkle.Root := ⟨fun root => report root.digest⟩

/-- The fields whose elements can be reported, with what is known of the field. -/
class ReportableField (F : Type) where
  /-- The description of an element. -/
  element : F → Report
  /-- The constants of the field. -/
  constants : List (String × Report)

/-- A number that may be too large for a word. -/
def decimal (number : Nat) : Report := text (toString number)

instance {p : Nat} [TwoAdicPrime p] : ReportableField (Residue p) where
  element a := decimal a.value
  constants :=
    [("modulus", decimal p), ("two_adicity", number (TwoAdicPrime.twoAdicity p)),
      ("root", decimal (Residue.field p).twoAdicRoot.value),
      ("generator", decimal (TwoAdicPrime.generator p)),
      ("bits", number (Residue.bitLength p))]

/-- The constants of a field that is not given by a prime. -/
def extensionConstants (F : Type) [FiniteField F] (root : Report) : List (String × Report) :=
  [("two_adicity", number (FiniteField.twoAdicity F)), ("root", root),
    ("bits", number (FiniteField.bitLength F))]

/-- The two coordinates of an element. -/
def coordinates (a : GoldilocksExtension) : Report :=
  list [ReportableField.element a.c0, ReportableField.element a.c1]

instance : ReportableField GoldilocksExtension where
  element := coordinates
  constants := extensionConstants GoldilocksExtension (coordinates FiniteField.twoAdicRoot)

instance : ReportableField BinaryField where
  element a := decimal a.bits.toNat
  constants := extensionConstants BinaryField (decimal 1)

variable {F : Type} [FiniteField F] [ReportableField F]

/-- The description of an element. -/
def ofElement (element : F) : Report := ReportableField.element element

/-- Lists of more elements are abbreviated. -/
def longestList : Nat := 64

/-- The description of a list of elements. -/
def ofElements (values : Array F) : Report :=
  match values[0]?, values.back?, decide (longestList < values.size) with
  | some first, some last, true =>
      record [("len", number values.size), ("first", ofElement first), ("last", ofElement last),
        ("hash", report (hashElements values))]
  | _, _, _ => list (values.toList.map ofElement)

instance : Reportable (Array F) := ⟨ofElements⟩

end Report

/-- What a report says of an error: the name of its kind and its text. Faults
have one kind. -/
class ReportableError (ε : Type) where
  kind : ε → String
  message : ε → Option String

instance : ReportableError Fault := ⟨fun _ => "Fault", Fault.message⟩

instance : ReportableError DomainError := ⟨DomainError.kind, DomainError.message⟩

instance : ReportableError MerkleError := ⟨MerkleError.kind, some ∘ MerkleError.message⟩

instance : ReportableError FriError := ⟨FriError.kind, FriError.message⟩

instance : ReportableError SumcheckError := ⟨SumcheckError.kind, SumcheckError.message⟩

end OracleProofs

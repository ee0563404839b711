/-
# Hashing field elements and digests

A list of elements is hashed through the concatenation of their encodings, which
have equal lengths, so lists with different elements hash different bytes. Two
digests are hashed through their sixty-four bytes, left before right.
-/

import OracleProofs.Digest.Sha256
import OracleProofs.Field.Basic

namespace OracleProofs

variable {F : Type} [FiniteField F]

/-- The bytes by which a list of elements enters the hash. -/
def elementBytes (values : Array F) : List UInt8 :=
  values.toList.flatMap FiniteField.encode

/-- The hash of a list of elements. -/
def hashElements (values : Array F) : Digest :=
  Sha256.hash (elementBytes values)

/-- The hash of a single element. -/
def hashElement (value : F) : Digest :=
  Sha256.hash (FiniteField.encode value)

/-- The bytes by which two digests enter the hash. -/
def pairBytes (left right : Digest) : List UInt8 :=
  left.bytes.toList ++ right.bytes.toList

/-- The hash of two digests. -/
def hashPair (left right : Digest) : Digest :=
  Sha256.hash (pairBytes left right)

namespace Digest

/-- The two hexadecimal digits of a byte, in lower case. -/
def hexByte (byte : UInt8) : String :=
  String.ofList [Nat.digitChar (byte.toNat / 16), Nat.digitChar (byte.toNat % 16)]

/-- The hexadecimal digits of a digest. -/
def toHex (digest : Digest) : String :=
  String.join (digest.bytes.toList.map hexByte)

/-- The value of a hexadecimal digit in either case. -/
def hexValue? (digit : Char) : Option Nat :=
  let value := "0123456789abcdef".toList.findIdx (· = digit.toLower)
  if value < 16 then some value else none

/-- The bytes written by pairs of hexadecimal digits. -/
def hexBytes? : List Char → Option (List UInt8)
  | [] => some []
  | high :: low :: rest => do
      return UInt8.ofNat (16 * (← hexValue? high) + (← hexValue? low)) :: (← hexBytes? rest)
  | _ => none

/-- Reads the sixty-four hexadecimal digits of a digest. -/
def ofHex? (digits : String) : Option Digest := do
  let bytes := (← hexBytes? digits.toList).toArray
  if size : bytes.size = 32 then return ⟨⟨bytes, size⟩⟩ else none

/-- The digest with the lowest bit of one byte flipped. Bytes are counted around
the end. -/
def flipBit (digest : Digest) (byte : Nat) : Digest :=
  ⟨Vector.ofFn fun place : Fin 32 =>
    if place.val = byte % 32 then digest.bytes[place] ^^^ 1 else digest.bytes[place]⟩

end Digest
end OracleProofs

/-
# The hash function SHA-256

Byte strings are lists of bytes and digests are vectors of thirty-two bytes. A
message is padded to whole blocks of sixteen words; each block is expanded to a
schedule of sixty-four words that drive the sixty-four rounds of a compression
function over eight working variables.
-/

namespace OracleProofs

/-- The value of the hash function: thirty-two bytes. -/
structure Digest where
  bytes : Vector UInt8 32
  deriving DecidableEq

/-- The digest of zero bytes only, which stands for a digest not yet known. -/
instance : Inhabited Digest := ⟨⟨Vector.replicate 32 0⟩⟩

namespace Sha256

/-- The eight working variables of the compression function. -/
structure Working where
  a : UInt32
  b : UInt32
  c : UInt32
  d : UInt32
  e : UInt32
  f : UInt32
  g : UInt32
  h : UInt32

/-- The working variables at the start of a message: the first thirty-two bits
of the fractional parts of the square roots of the first eight primes. -/
def initial : Working where
  a := 0x6a09e667
  b := 0xbb67ae85
  c := 0x3c6ef372
  d := 0xa54ff53a
  e := 0x510e527f
  f := 0x9b05688c
  g := 0x1f83d9ab
  h := 0x5be0cd19

/-- One constant per round: the first thirty-two bits of the fractional parts of
the cube roots of the first sixty-four primes. -/
def roundConstants : Array UInt32 := #[
  0x428a2f98, 0x71374491, 0xb5c0fbcf, 0xe9b5dba5, 0x3956c25b, 0x59f111f1, 0x923f82a4, 0xab1c5ed5,
  0xd807aa98, 0x12835b01, 0x243185be, 0x550c7dc3, 0x72be5d74, 0x80deb1fe, 0x9bdc06a7, 0xc19bf174,
  0xe49b69c1, 0xefbe4786, 0x0fc19dc6, 0x240ca1cc, 0x2de92c6f, 0x4a7484aa, 0x5cb0a9dc, 0x76f988da,
  0x983e5152, 0xa831c66d, 0xb00327c8, 0xbf597fc7, 0xc6e00bf3, 0xd5a79147, 0x06ca6351, 0x14292967,
  0x27b70a85, 0x2e1b2138, 0x4d2c6dfc, 0x53380d13, 0x650a7354, 0x766a0abb, 0x81c2c92e, 0x92722c85,
  0xa2bfe8a1, 0xa81a664b, 0xc24b8b70, 0xc76c51a3, 0xd192e819, 0xd6990624, 0xf40e3585, 0x106aa070,
  0x19a4c116, 0x1e376c08, 0x2748774c, 0x34b0bcb5, 0x391c0cb3, 0x4ed8aa4a, 0x5b9cca4f, 0x682e6ff3,
  0x748f82ee, 0x78a5636f, 0x84c87814, 0x8cc70208, 0x90befffa, 0xa4506ceb, 0xbef9a3f7, 0xc67178f2]

/-- Rotation of a word to the right by an amount below thirty-two. -/
@[inline] def rotateRight (word amount : UInt32) : UInt32 :=
  (word >>> amount) ||| (word <<< (32 - amount))

/-- Appends the next word of the schedule, which mixes the words sixteen,
fifteen, seven and two places before it. -/
def extendSchedule (schedule : Array UInt32) : Array UInt32 :=
  let place := schedule.size
  let w15 := schedule.getD (place - 15) 0
  let w2 := schedule.getD (place - 2) 0
  let s0 := rotateRight w15 7 ^^^ rotateRight w15 18 ^^^ (w15 >>> 3)
  let s1 := rotateRight w2 17 ^^^ rotateRight w2 19 ^^^ (w2 >>> 10)
  schedule.push (schedule.getD (place - 16) 0 + s0 + schedule.getD (place - 7) 0 + s1)

/-- One round, driven by a constant and a word of the schedule. -/
@[inline] def round (w : Working) (constant word : UInt32) : Working :=
  let s1 := rotateRight w.e 6 ^^^ rotateRight w.e 11 ^^^ rotateRight w.e 25
  let choice := (w.e &&& w.f) ^^^ ((~~~w.e) &&& w.g)
  let first := w.h + s1 + choice + constant + word
  let s0 := rotateRight w.a 2 ^^^ rotateRight w.a 13 ^^^ rotateRight w.a 22
  let majority := (w.a &&& w.b) ^^^ (w.a &&& w.c) ^^^ (w.b &&& w.c)
  { a := first + (s0 + majority), b := w.a, c := w.b, d := w.c
    e := w.d + first, f := w.e, g := w.f, h := w.g }

/-- Runs the sixty-four rounds on a block of sixteen words and adds the result
to the variables it started from. -/
def compress (start : Working) (block : Array UInt32) : Working :=
  let schedule := Nat.repeat extendSchedule 48 block
  let w := Nat.fold 64 (fun place _ w =>
    round w (roundConstants.getD place 0) (schedule.getD place 0)) start
  { a := start.a + w.a, b := start.b + w.b, c := start.c + w.c, d := start.d + w.d
    e := start.e + w.e, f := start.f + w.f, g := start.g + w.g, h := start.h + w.h }

/-- The most significant byte first, eight bytes in all. -/
def bigEndian64 (number : Nat) : List UInt8 :=
  (List.range 8).map fun place => UInt8.ofNat (number >>> (8 * (7 - place)))

/-- The message, a single one bit, zero bits, and the length of the message in
bits as a 64-bit number: a multiple of sixty-four bytes. -/
def pad (message : List UInt8) : List UInt8 :=
  let length := message.length
  message ++ 0x80 :: (List.replicate ((119 - length % 64) % 64) 0 ++ bigEndian64 (8 * length))

/-- Reads bytes as words, most significant byte first. -/
def toWords : List UInt8 → List UInt32
  | b0 :: b1 :: b2 :: b3 :: rest =>
      ((b0.toUInt32 <<< 24) ||| (b1.toUInt32 <<< 16) ||| (b2.toUInt32 <<< 8) ||| b3.toUInt32)
        :: toWords rest
  | _ => []

/-- Compresses the first `count` blocks of the words, one after the other. -/
def compressBlocks : (count : Nat) → Working → List UInt32 → Working
  | 0, w, _ => w
  | count + 1, w, words =>
      compressBlocks count (compress w (words.take 16).toArray) (words.drop 16)

/-- The words of the final variables as bytes, most significant byte first. -/
def output (w : Working) : Digest :=
  let words : Vector UInt32 8 := #v[w.a, w.b, w.c, w.d, w.e, w.f, w.g, w.h]
  ⟨Vector.ofFn fun place : Fin 32 =>
    (words[place.val / 4] >>> (8 * (3 - place.val % 4)).toUInt32).toUInt8⟩

/-- The hash of a byte string. -/
def hash (message : List UInt8) : Digest :=
  let words := toWords (pad message)
  output (compressBlocks (words.length / 16) initial words)

end Sha256
end OracleProofs

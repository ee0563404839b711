/-
# Words, powers of two and reversed indices

Sizes, exponents and positions are counted in natural numbers. Where a caller
could exceed a 64-bit word, the count is refused instead of being cut, and so is
a list whose items could not be addressed together.

Every domain of the library has a power of two as its size, so sizes are tested
once, on entry, and dimensions are carried afterwards. The test is the classical
one on words: a positive number is a power of two exactly if removing its lowest
set bit leaves nothing.

A codeword is stored with its positions bit-reversed, because then the points
that one round of folding joins are neighbours. `reverseBits` moves an index,
`reverseOrder` moves a whole word by exchanging its entries in place, and
`bitReversed?` does so after checking that the length is a power of two.
-/

import OracleProofs.Error

namespace OracleProofs

/-- The number of bits of a word. -/
def wordBits : Nat := 64

/-- The number of bytes of a word. -/
def wordBytes : Nat := 8

/-- The number of values of a word. -/
def wordValues : Nat := 1 <<< wordBits

/-- The offsets between the bytes of one list are signed words, which bounds the
number of its bytes. -/
def addressableBytes : Nat := 1 <<< (wordBits - 1)

/-- Refuses a list of `count` items, of `width` bytes each, that could not be
addressed. -/
def checkRoom (count width : Nat) : Except Fault Unit :=
  if count * width < addressableBytes then .ok () else .error .overflow

/-- The sum of a count over a list. -/
def total {α : Type} (count : α → Nat) (items : List α) : Nat :=
  items.foldr (fun item sum => count item + sum) 0

/-- The sum of a list of words, if it is still a word. -/
def wordSum? (terms : List Nat) : Option Nat :=
  let sum := total id terms
  if sum < wordValues then some sum else none

/-- The numbers of a list in increasing order and without repetition, if they
differ in the lowest `bits` bits at most: those without the highest of these bits
come before those with it. -/
def sortedByBits : (bits : Nat) → List Nat → List Nat
  | _, [] => []
  | 0, number :: _ => [number]
  | bits + 1, numbers =>
      sortedByBits bits (numbers.filter fun number => !number.testBit bits) ++
        sortedByBits bits (numbers.filter fun number => number.testBit bits)

/-- The numbers of a list in increasing order and without repetition: how
queried leaves are listed. -/
def sortedDistinct (numbers : List Nat) : List Nat :=
  sortedByBits ((numbers.foldr max 0).log2 + 1) numbers

/-- Whether a number, of any width and signedness, is a power of two. Numbers
that are not positive are not. -/
def isPowerOfTwo (number : Int) : Bool :=
  0 < number && number.toNat &&& (number.toNat - 1) == 0

/-- The base-two logarithm of a power of two, and nothing for other numbers. -/
def exactLog2 (number : Nat) : Option Nat :=
  if isPowerOfTwo number then some number.log2 else none

/-- The least exponent whose power of two reaches `number`. -/
def ceilLog2 (number : Nat) : Nat :=
  if number ≤ 1 then 0 else (number - 1).log2 + 1

variable {α : Type}

/-- Reverses the lowest `width` bits of an index. Higher bits are dropped. -/
def reverseBits : (width index : Nat) → Nat
  | 0, _ => 0
  | width + 1, index => (index % 2) <<< width + reverseBits width (index / 2)

/-- One exchange of the reversal. Acting only when the index is the smaller of
the two touches every pair once. -/
def exchangeReversed (width : Nat) (values : Array α) (index : Nat) : Array α :=
  if index < reverseBits width index then
    values.swapIfInBounds index (reverseBits width index)
  else values

/-- Permutes a word of length `2 ^ width` in place by reversing its indices. -/
def reverseOrder (width : Nat) (values : Array α) : Array α :=
  (List.range values.size).foldl (exchangeReversed width) values

/-- Permutes a word by reversing its indices. Words of at most one entry stay as
they are, and a longer one must have a power of two as its length. -/
def bitReversed? (values : Array α) : Except Fault (Array α) :=
  if values.size ≤ 1 then .ok values
  else match exactLog2 values.size with
    | some width => .ok (reverseOrder width values)
    | none => .error (.lengthNotPowerOfTwo values.size)

end OracleProofs

/-
# Sources of random words

A source is a state from which 64-bit words are drawn. Field elements and
positions are drawn by rejection: a word that would bias the result is thrown
away and another one is drawn. The number of attempts is bounded by the number
of states of the generator below, after which its words repeat. A search that
has failed for that long fails for ever, so it is answered by nothing.
-/

import OracleProofs.Binary.Word
import OracleProofs.Field.Extension

namespace OracleProofs

/-- A state from which words are drawn. -/
class RandomSource (S : Type) where
  /-- The next word and the state after it. -/
  next : S → UInt64 × S

/-- The state of the generator that adds a fixed odd number to its state and
mixes the sum. -/
structure SplitMix where
  state : UInt64

namespace SplitMix

/-- Mixes the bits of a state into a word. -/
def mix (z : UInt64) : UInt64 :=
  let z := (z ^^^ (z >>> 30)) * 0xbf58476d1ce4e5b9
  let z := (z ^^^ (z >>> 27)) * 0x94d049bb133111eb
  z ^^^ (z >>> 31)

instance : RandomSource SplitMix where
  next source :=
    let state := source.state + 0x9e3779b97f4a7c15
    (mix state, ⟨state⟩)

end SplitMix

variable {S : Type} [RandomSource S]

/-- The bound on the attempts of one search. -/
def drawAttempts : Nat := wordValues

/-- A number of `count` words, of which the lowest is drawn first. -/
def drawWords : (count : Nat) → S → Nat × S
  | 0, source => (0, source)
  | count + 1, source =>
      let (low, source) := RandomSource.next source
      let (high, source) := drawWords count source
      (low.toNat + wordValues * high, source)

/-- Draws numbers of `words` words, cut to the bits of `p`, until one is below
`p`. -/
def drawBelowPrime (p words : Nat) : (attempts : Nat) → S → Option (Nat × S)
  | 0, _ => none
  | attempts + 1, source =>
      let (number, source) := drawWords words source
      let candidate := number % (1 <<< Residue.bitLength p)
      if candidate < p then some (candidate, source)
      else drawBelowPrime p words attempts source

/-- Draws words until the lower half of the product with `bound`, shifted up to
the top of a word, does not exceed the zone in which every result is equally
likely, and answers the upper half. -/
def drawBelow (bound : Nat) : (attempts : Nat) → S → Option (Nat × S)
  | 0, _ => none
  | attempts + 1, source =>
      let zone := bound <<< (63 - bound.log2) - 1
      let (word, source) := RandomSource.next source
      let product := word.toNat * bound
      if product % wordValues ≤ zone then some (product / wordValues, source)
      else drawBelow bound attempts source

/-- A position below `bound`. -/
def drawPosition (bound : Nat) (source : S) : Option (Nat × S) :=
  drawBelow bound drawAttempts source

/-- Repeats a drawing `count` times, in order. -/
def drawMany {α : Type} (draw : S → Option (α × S)) : (count : Nat) → S → Option (List α × S)
  | 0, source => some ([], source)
  | count + 1, source => do
      let (value, source) ← draw source
      let (values, source) ← drawMany draw count source
      return (value :: values, source)

/-- The same, unless the values, of `width` bytes each, could not be held
together. -/
def drawMany? {α : Type} (width : Nat) (draw : S → Option (α × S)) (count : Nat) (source : S) :
    Except Fault (List α × S) := do
  checkRoom count width
  match drawMany draw count source with
  | some drawn => return drawn
  | none => .error .endless

/-- The fields whose elements can be drawn. -/
class Drawable (F : Type) where
  /-- A random element and the state after it, unless the source has none. -/
  draw : {S : Type} → [RandomSource S] → S → Option (F × S)

/-- A residue is drawn as its product with `2 ^ (64 * words)`, the form in which
word-by-word multiplication keeps it. -/
instance {p : Nat} [TwoAdicPrime p] : Drawable (Residue p) where
  draw source := do
    let words := TwoAdicPrime.words p
    let (scaled, source) ← drawBelowPrime p words drawAttempts source
    return (Residue.ofNat (scaled * TwoAdicPrime.wordsInverse p), source)

/-- The two coordinates are drawn one after the other. -/
instance : Drawable GoldilocksExtension where
  draw source := do
    let (c0, source) ← Drawable.draw (F := Goldilocks) source
    let (c1, source) ← Drawable.draw (F := Goldilocks) source
    return (⟨c0, c1⟩, source)

/-- Every bit pattern is an element, so one word is enough. -/
instance : Drawable BinaryField where
  draw source :=
    let (word, source) := RandomSource.next source
    some (.ofNat word.toNat, source)

end OracleProofs

/-
# Operations on words that may break off

A machine reads and exchanges entries only where there are some, adds and multiplies only up
to a word, subtracts only what is there and shifts a word by less than its number of bits. It
reverses the low bits of a word by reversing all bits and shifting the others out. Each of
these operations is stated with its condition; where the condition holds, it has the result
that it has for natural numbers and for arrays.
-/

import Mathlib
import OracleProofs.Binary.Word
import OracleProofs.Proofs.Binary.Reversal
import OracleProofs.Proofs.Fault

namespace OracleProofs

/-- An entry that must exist. -/
def demand {α : Type} (found? : Option α) : Except Fault α :=
  match found? with
  | some entry => .ok entry
  | none => .error .outOfRange

/-- A difference that must not be negative. -/
def subtract? (number other : ℕ) : Except Fault ℕ :=
  if other ≤ number then .ok (number - other) else .error .overflow

/-- A sum that must stay a word. -/
def add? (number other : ℕ) : Except Fault ℕ :=
  if number + other < wordValues then .ok (number + other) else .error .overflow

/-- A product that must stay a word. -/
def multiply? (number other : ℕ) : Except Fault ℕ :=
  if number * other < wordValues then .ok (number * other) else .error .overflow

/-- The place of an entry of a block, where blocks of one size stand one after the other. -/
def placeOf? (size block offset : ℕ) : Except Fault ℕ := do
  add? (← multiply? block size) offset

/-- The sum of a list, of which every partial sum must stay a word. -/
def runningSum? (terms : List ℕ) : Except Fault ℕ := terms.foldlM add? 0

/-- A shift to the left. Bits that leave the word are lost. -/
def shiftLeft? (number amount : ℕ) : Except Fault ℕ :=
  if amount < wordBits then .ok ((number <<< amount) % wordValues) else .error .overflow

/-- A shift to the right. -/
def shiftRight? (number amount : ℕ) : Except Fault ℕ :=
  if amount < wordBits then .ok (number >>> amount) else .error .overflow

/-- Reverses the lowest bits of a word. -/
def reverseWord? (width index : ℕ) : Except Fault ℕ :=
  if width = 0 then .ok 0
  else do shiftRight? (reverseBits wordBits index) (← subtract? wordBits width)

/-- An exchange of two entries that must exist. -/
def swap? {α : Type} (values : Array α) (first second : ℕ) : Except Fault (Array α) :=
  if inside : first < values.size ∧ second < values.size then
    .ok (values.swap first second inside.1 inside.2)
  else .error .outOfRange

@[simp]
theorem demand_some {α : Type} (entry : α) : demand (some entry) = .ok entry := rfl

theorem swap?_eq_ok {α : Type} {values : Array α} {first second : ℕ}
    (hfirst : first < values.size) (hsecond : second < values.size) :
    swap? values first second = .ok (values.swapIfInBounds first second) := by
  rw [swap?, dif_pos ⟨hfirst, hsecond⟩, Array.swapIfInBounds_def, dif_pos hfirst, dif_pos hsecond]

/-- Partial sums grow, so a list can be added up exactly if its sum is a word. -/
theorem runningSum?_eq (terms : List ℕ) :
    runningSum? terms =
      if terms.sum < wordValues then .ok terms.sum else .error .overflow := by
  suffices hstart : ∀ start < wordValues, terms.foldlM add? start =
      if start + terms.sum < wordValues then .ok (start + terms.sum) else .error .overflow by
    have hzero := hstart 0 (by decide)
    rwa [Nat.zero_add] at hzero
  induction terms with
  | nil =>
      intro start hword
      rw [List.sum_nil, Nat.add_zero, if_pos hword]
      rfl
  | cons term rest ih =>
      intro start hword
      rw [List.foldlM_cons, List.sum_cons, ← Nat.add_assoc, add?]
      by_cases hsum : start + term < wordValues
      · rw [if_pos hsum, ok_bind, ih _ hsum]
      · have htotal : ¬start + term + rest.sum < wordValues := fun h =>
          hsum ((Nat.le_add_right _ _).trans_lt h)
        rw [if_neg hsum, if_neg htotal]
        rfl

theorem subtract?_eq_ok {number other : ℕ} (le : other ≤ number) :
    subtract? number other = .ok (number - other) :=
  if_pos le

theorem add?_eq_ok {number other : ℕ} (fits : number + other < wordValues) :
    add? number other = .ok (number + other) :=
  if_pos fits

theorem multiply?_eq_ok {number other : ℕ} (fits : number * other < wordValues) :
    multiply? number other = .ok (number * other) :=
  if_pos fits

theorem multiply?_eq_error {number other : ℕ} (large : wordValues ≤ number * other) :
    multiply? number other = .error .overflow :=
  if_neg (not_lt.mpr large)

theorem placeOf?_eq_ok {size block offset : ℕ} (fits : block * size + offset < wordValues) :
    placeOf? size block offset = .ok (block * size + offset) := by
  rw [placeOf?, multiply?_eq_ok ((Nat.le_add_right _ _).trans_lt fits), ok_bind, add?_eq_ok fits]

theorem shiftLeft?_eq_ok {number amount : ℕ} (room : amount < wordBits)
    (fits : number * 2 ^ amount < wordValues) :
    shiftLeft? number amount = .ok (number * 2 ^ amount) := by
  rw [shiftLeft?, if_pos room, Nat.shiftLeft_eq, Nat.mod_eq_of_lt fits]

theorem shiftLeft?_one_eq_ok {amount : ℕ} (room : amount < wordBits) :
    shiftLeft? 1 amount = .ok (2 ^ amount) := by
  have hfits : 1 * 2 ^ amount < wordValues := by
    rw [one_mul, wordValues, Nat.one_shiftLeft]
    exact Nat.pow_lt_pow_right one_lt_two room
  rw [shiftLeft?_eq_ok room hfits, one_mul]

theorem shiftRight?_eq_ok {amount : ℕ} (room : amount < wordBits) (number : ℕ) :
    shiftRight? number amount = .ok (number / 2 ^ amount) := by
  rw [shiftRight?, if_pos room, Nat.shiftRight_eq_div_pow]

section Reversal

variable {bits width : ℕ}

/-- Shifting all bits reversed leaves the low bits reversed. -/
theorem reverseBits_div (fits : width ≤ bits) (index : ℕ) :
    reverseBits bits index / 2 ^ (bits - width) = reverseBits width index := by
  have hsplit := reverseBits_split (bits - width) (index / 2 ^ width)
    (Nat.mod_lt index (Nat.two_pow_pos width))
  rw [Nat.add_sub_of_le fits, mul_comm (index / 2 ^ width), Nat.div_add_mod,
    reverseBits_mod] at hsplit
  rw [hsplit, add_comm, Nat.add_mul_div_right _ _ (Nat.two_pow_pos _),
    Nat.div_eq_of_lt (reverseBits_lt _ _), zero_add]

theorem toNat_reverse (word : BitVec bits) :
    word.reverse.toNat = reverseBits bits word.toNat := by
  apply Nat.eq_of_testBit_eq
  intro place
  rw [BitVec.testBit_toNat, BitVec.getLsbD_reverse, BitVec.getMsbD_eq_getLsbD,
    testBit_reverseBits, BitVec.testBit_toNat]

theorem toNat_reverse_shifted (fits : width ≤ bits) (word : BitVec bits) :
    (word.reverse >>> (bits - width)).toNat = reverseBits width word.toNat := by
  rw [BitVec.toNat_ushiftRight, Nat.shiftRight_eq_div_pow, toNat_reverse, reverseBits_div fits]

/-- The only bit of a power of two stands above as many zeros as the exponent says. -/
theorem toNat_ctz_two_pow (room : width < bits) :
    (BitVec.ofNat bits (2 ^ width)).ctz.toNat = width := by
  have hpositive : BitVec.ofNat bits (2 ^ width) ≠ 0 := by
    rw [BitVec.toNat_ne, BitVec.toNat_ofNat,
      Nat.mod_eq_of_lt (Nat.pow_lt_pow_right one_lt_two room)]
    simp
  have hlowest := BitVec.getLsbD_true_ctz_of_ne_zero hpositive
  rw [BitVec.getLsbD_ofNat, Nat.testBit_two_pow, Bool.and_eq_true] at hlowest
  exact (of_decide_eq_true hlowest.2).symm

theorem reverseWord?_eq_ok (fits : width ≤ wordBits) (index : ℕ) :
    reverseWord? width index = .ok (reverseBits width index) := by
  rw [reverseWord?]
  by_cases hzero : width = 0
  · rw [if_pos hzero, hzero, reverseBits]
  · have hroom : wordBits - width < wordBits :=
      Nat.sub_lt_self (Nat.pos_of_ne_zero hzero) fits
    rw [if_neg hzero, subtract?_eq_ok fits, ok_bind, shiftRight?_eq_ok hroom,
      reverseBits_div fits]

end Reversal
end OracleProofs

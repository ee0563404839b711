/-
# Reversal in place

A machine counts the zeros at the end of a length to find the number of bits of an index,
reverses an index by reversing a whole word and shifting, and exchanges entries where they
stand. Each of these steps may break off. Written out step by step, the permutation answers
as the plain one does on every word that fits into memory, so it breaks off only where the
length is refused. It gathers the word along the reversed indices.
-/

import Mathlib
import OracleProofs.Proofs.Binary.Word

namespace OracleProofs

variable {α : Type}

/-- One exchange of the reversal. Both entries must exist. -/
def exchangeReversed? (width : ℕ) (values : Array α) (index : ℕ) : Except Fault (Array α) := do
  let partner ← reverseWord? width index
  if index < partner then swap? values index partner else return values

/-- Permutes a word in place by reversing its indices. -/
def reverseInPlace? (values : Array α) : Except Fault (Array α) :=
  if values.size ≤ 1 then .ok values
  else if isPowerOfTwo values.size then
    let width := (BitVec.ofNat wordBits values.size).ctz.toNat
    (List.range values.size).foldlM (exchangeReversed? width) values
  else .error (.lengthNotPowerOfTwo values.size)

variable {width : ℕ} {values : Array α}

theorem exchangeReversed?_eq_ok (fits : width ≤ wordBits) (size : values.size = 2 ^ width)
    {index : ℕ} (inside : index < 2 ^ width) :
    exchangeReversed? width values index = .ok (exchangeReversed width values index) := by
  rw [exchangeReversed?, exchangeReversed, reverseWord?_eq_ok fits, ok_bind]
  by_cases hsmaller : index < reverseBits width index
  · rw [if_pos hsmaller, if_pos hsmaller,
      swap?_eq_ok (size ▸ inside) (size ▸ reverseBits_lt width index)]
  · rw [if_neg hsmaller, if_neg hsmaller]
    rfl

/-- Exchanges keep the length, so every one of them finds both its entries. -/
theorem foldlM_exchangeReversed? (fits : width ≤ wordBits) (size : values.size = 2 ^ width) :
    (List.range values.size).foldlM (exchangeReversed? width) values =
      .ok (reverseOrder width values) := by
  have hstep : ∀ word : Array α, word.size = 2 ^ width → ∀ index ∈ List.range values.size,
      exchangeReversed? width word index = .ok (exchangeReversed width word index) ∧
        (exchangeReversed width word index).size = 2 ^ width := by
    intro word hsize index hmem
    rw [List.mem_range, size] at hmem
    exact ⟨exchangeReversed?_eq_ok fits hsize hmem,
      (size_exchangeReversed width word index).trans hsize⟩
  exact foldlM_eq_ok hstep size

/-- The guarded permutation answers as the plain one does. -/
theorem reverseInPlace?_eq (word : values.size < wordValues) :
    reverseInPlace? values = bitReversed? values := by
  rw [reverseInPlace?]
  by_cases hsmall : values.size ≤ 1
  · rw [if_pos hsmall, bitReversed?, if_pos hsmall]
  · rw [if_neg hsmall]
    by_cases hpower : ∃ width, values.size = 2 ^ width
    · obtain ⟨width, size⟩ := hpower
      have hroom : width < wordBits := by
        rw [size, wordValues, Nat.one_shiftLeft] at word
        exact (Nat.pow_lt_pow_iff_right one_lt_two).mp word
      have hwidth : (BitVec.ofNat wordBits values.size).ctz.toNat = width := by
        rw [size, toNat_ctz_two_pow hroom]
      rw [if_pos (isPowerOfTwo_iff.mpr ⟨width, size⟩), hwidth, bitReversed?_of_size size]
      exact foldlM_exchangeReversed? hroom.le size
    · rw [if_neg (mt isPowerOfTwo_iff.mp hpower), bitReversed?, if_neg hsmall,
        exactLog2_eq_none_iff.mpr (not_exists.mp hpower)]

/-- What reversing the lowest bits of an index does. -/
structure ReversesBits (reverse : (width index : ℕ) → ℕ) : Prop where
  /-- A bit changes places with the one at the same distance from the other end. -/
  testBit_eq (width index place : ℕ) : (reverse width index).testBit place =
    (decide (place < width) && index.testBit (width - 1 - place))
  /-- Indices are exchanged in pairs, or stay. -/
  involutive {width index : ℕ} (inside : index < 2 ^ width) :
    reverse width index < 2 ^ width ∧ reverse width (reverse width index) = index
  /-- Higher bits do not count. -/
  lowest {width index other : ℕ} (same : index % 2 ^ width = other % 2 ^ width) :
    reverse width index = reverse width other
  /-- Of a high and a low part, each is reversed, and they change places. -/
  parts {low width bottom : ℕ} (le : low ≤ width) (bottom_lt : bottom < 2 ^ low) (top : ℕ) :
    reverse width (top * 2 ^ low + bottom) =
      reverse low bottom * 2 ^ (width - low) + reverse (width - low) top
  /-- A whole word may be reversed instead, and then shifted. -/
  shifted {width : ℕ} (fits : width ≤ wordBits) (word : BitVec wordBits) :
    reverse width word.toNat = (word.reverse >>> (wordBits - width)).toNat

theorem reversesBits_reverseBits : ReversesBits reverseBits where
  testBit_eq := testBit_reverseBits
  involutive inside := ⟨reverseBits_lt _ _, reverseBits_reverseBits inside⟩
  lowest {width index other} same := by
    rw [← reverseBits_mod width index, same, reverseBits_mod]
  parts {low width _} le bottom_lt top := by
    have hsplit := reverseBits_split (width - low) top bottom_lt
    rwa [Nat.add_sub_of_le le] at hsplit
  shifted fits word := (toNat_reverse_shifted fits word).symm

/-- What permuting a word along the reversed indices does. -/
structure ReversesOrder (permute : Array α → Except Fault (Array α)) (values : Array α) :
    Prop where
  empty (size : values.size = 0) : permute values = .ok values
  /-- The entries are gathered along the reversed indices, none of them is lost, and the same
  permutation brings them back. -/
  gathers {width : ℕ} (size : values.size = 2 ^ width) : ∃ word, permute values = .ok word ∧
    word.size = 2 ^ width ∧
    (∀ index < 2 ^ width, word[index]? = values[reverseBits width index]?) ∧
    word.Perm values ∧ permute word = .ok values
  /-- Every other length is refused, and nothing else is. -/
  refuses (fault : Fault) : permute values = .error fault ↔
    fault = .lengthNotPowerOfTwo values.size ∧ values.size ≠ 0 ∧
      ∀ width, values.size ≠ 2 ^ width

theorem reversesOrder_bitReversed? (values : Array α) : ReversesOrder bitReversed? values where
  empty size := if_pos (by omega)
  gathers {width} size := by
    have hsize := (size_reverseOrder width values).trans size
    refine ⟨reverseOrder width values, bitReversed?_of_size size, hsize,
      fun index => getElem?_reverseOrder size, reverseOrder_perm width values, ?_⟩
    rw [bitReversed?_of_size hsize, reverseOrder_reverseOrder size]
  refuses _ := bitReversed?_eq_error_iff

/-- Reversal of the lowest bits exchanges indices in pairs, reads no other bits, and never breaks
off on a machine. Exchanging the entries of these pairs in place is gathering, and it is
refused exactly for the lengths that are neither zero nor a power of two. -/
theorem bitReversed?_exact (values : Array α) :
    ReversesBits reverseBits ∧
      (∀ width ≤ wordBits, ∀ index, reverseWord? width index = .ok (reverseBits width index)) ∧
      ReversesOrder bitReversed? values ∧
      (values.size < wordValues → reverseInPlace? values = bitReversed? values) :=
  ⟨reversesBits_reverseBits, fun _ fits => reverseWord?_eq_ok fits,
    reversesOrder_bitReversed? values, reverseInPlace?_eq⟩

/-- Four entries, of which the second and the third change places. -/
def tens : Array ℕ := #[10, 20, 30, 40]

/-- Without its last entry the word is refused. -/
theorem bitReversed?_exact_at_tens :
    (∃ word, bitReversed? tens = .ok word ∧ word[1]? = some 30 ∧ bitReversed? word = .ok tens) ∧
      reverseInPlace? tens = bitReversed? tens ∧
      bitReversed? tens.pop = .error (.lengthNotPowerOfTwo 3) ∧
      reverseBits 5 (6 * 2 ^ 2 + 1) = reverseBits 2 1 * 2 ^ 3 + reverseBits 3 6 := by
  obtain ⟨hbits, -, horder, hplace⟩ := bitReversed?_exact tens
  obtain ⟨-, -, hshort, -⟩ := bitReversed?_exact tens.pop
  have hsize : tens.size = 2 ^ 2 := rfl
  have hodd : ∀ width, tens.pop.size ≠ 2 ^ width := by
    have hthree : tens.pop.size = 3 := rfl
    intro width hpower
    cases width with
    | zero => omega
    | succ width =>
        rw [pow_succ] at hpower
        omega
  obtain ⟨word, hword, -, hentries, -, hback⟩ := horder.gathers hsize
  refine ⟨⟨word, hword, hentries 1 (by decide), hback⟩, hplace (by decide), ?_, ?_⟩
  · exact (hshort.refuses _).mpr ⟨rfl, by decide, hodd⟩
  · exact hbits.parts (by decide) (by decide) 6

end OracleProofs

/-
# Reversal is an involution that moves low bits to the top

Reversal puts every bit at the same distance from the other end. Splitting an index into
a high and a low part and reversing it gives the two reversed parts in the other order.
From this law the others follow: reversal is its own inverse, and the positions of a leaf
differ only in the highest bits of their points. The exchanges in place are shown to
gather the word along the reversed index and to lose none of its entries.
-/

import Mathlib
import OracleProofs.Binary.Word

namespace OracleProofs

/-- The powers of two are exactly what the test on words accepts. -/
theorem isPowerOfTwo_iff {number : ℕ} :
    isPowerOfTwo (number : ℤ) = true ↔ ∃ exponent, number = 2 ^ exponent := by
  simp only [isPowerOfTwo, Int.toNat_natCast, Bool.and_eq_true, decide_eq_true_eq,
    Int.natCast_pos, beq_iff_eq, Nat.pos_iff_ne_zero]
  exact Nat.ne_zero_and_sub_one_eq_zero_iff_isPowerOfTwo

theorem exactLog2_eq_some_iff {number exponent : ℕ} :
    exactLog2 number = some exponent ↔ number = 2 ^ exponent := by
  rw [exactLog2]
  by_cases hpower : isPowerOfTwo (number : ℤ) = true
  · rw [if_pos hpower]
    obtain ⟨other, rfl⟩ := isPowerOfTwo_iff.mp hpower
    rw [Nat.log2_two_pow, Option.some.injEq, Nat.pow_right_inj one_lt_two]
  · rw [if_neg hpower]
    constructor
    · intro h
      cases h
    · intro h
      exact absurd (isPowerOfTwo_iff.mpr ⟨exponent, h⟩) hpower

@[simp]
theorem exactLog2_two_pow (exponent : ℕ) : exactLog2 (2 ^ exponent) = some exponent :=
  exactLog2_eq_some_iff.mpr rfl

theorem exactLog2_eq_none_iff {number : ℕ} :
    exactLog2 number = none ↔ ∀ exponent, number ≠ 2 ^ exponent := by
  rw [Option.eq_none_iff_forall_ne_some]
  exact forall_congr' fun exponent => not_congr exactLog2_eq_some_iff

theorem le_two_pow_ceilLog2 (number : ℕ) : number ≤ 2 ^ ceilLog2 number := by
  rw [ceilLog2]
  split
  · simpa
  · have h := Nat.lt_log2_self (n := number - 1)
    omega

theorem ceilLog2_le_iff {number exponent : ℕ} :
    ceilLog2 number ≤ exponent ↔ number ≤ 2 ^ exponent := by
  constructor
  · intro hle
    exact (le_two_pow_ceilLog2 number).trans (Nat.pow_le_pow_right two_pos hle)
  · intro hle
    rw [ceilLog2]
    split
    · exact Nat.zero_le _
    · rw [Nat.add_one_le_iff, Nat.log2_lt (by omega)]
      omega

theorem ceilLog2_eq_clog (number : ℕ) : ceilLog2 number = Nat.clog 2 number :=
  eq_of_forall_ge_iff fun _ => ceilLog2_le_iff.trans (Nat.clog_le_iff_le_pow one_lt_two).symm

section Index

@[simp]
theorem reverseBits_zero (width : ℕ) : reverseBits width 0 = 0 := by
  induction width with
  | zero => rfl
  | succ width ih => rw [reverseBits, Nat.zero_mod, Nat.zero_shiftLeft, Nat.zero_div, ih]

theorem reverseBits_lt (width index : ℕ) : reverseBits width index < 2 ^ width := by
  induction width generalizing index with
  | zero => simp [reverseBits]
  | succ width ih =>
      have hrest := ih (index / 2)
      have hbit : index % 2 * 2 ^ width ≤ 2 ^ width :=
        mul_le_of_le_one_left (Nat.zero_le _) (by omega)
      rw [reverseBits, Nat.shiftLeft_eq, pow_succ]
      omega

/-- A bit changes places with the one at the same distance from the other end. -/
theorem testBit_reverseBits (width index place : ℕ) :
    (reverseBits width index).testBit place =
      (decide (place < width) && index.testBit (width - 1 - place)) := by
  induction width generalizing index with
  | zero => simp [reverseBits]
  | succ width ih =>
      rw [reverseBits, Nat.shiftLeft_eq, mul_comm,
        Nat.testBit_two_pow_mul_add _ (reverseBits_lt width (index / 2))]
      rcases lt_trichotomy place width with hbelow | rfl | habove
      · have hplace : width - 1 - place + 1 = width + 1 - 1 - place := by omega
        rw [if_pos hbelow, ih, Nat.testBit_div_two, hplace]
        simp [hbelow, hbelow.trans width.lt_succ_self]
      · simp
      · have hhigh : (index % 2).testBit (place - width) = false :=
          Nat.testBit_lt_two_pow ((Nat.mod_lt index two_pos).trans_le
            (Nat.le_self_pow (Nat.sub_pos_of_lt habove).ne' 2))
        rw [if_neg habove.not_gt, hhigh, decide_eq_false (by omega), Bool.false_and]

/-- The reversed low part comes on top of the reversed high part. -/
theorem reverseBits_split {low : ℕ} (high top : ℕ) {bottom : ℕ} (fits : bottom < 2 ^ low) :
    reverseBits (low + high) (top * 2 ^ low + bottom) =
      reverseBits low bottom * 2 ^ high + reverseBits high top := by
  induction low generalizing bottom with
  | zero =>
      have hzero : bottom = 0 := by simpa using fits
      simp [hzero, reverseBits]
  | succ low ih =>
      have hhalf : bottom / 2 < 2 ^ low := by
        rw [pow_succ] at fits
        omega
      have hdouble : top * 2 ^ (low + 1) = 2 * (top * 2 ^ low) := by ring
      have hlast : (top * 2 ^ (low + 1) + bottom) % 2 = bottom % 2 := by omega
      have hrest : (top * 2 ^ (low + 1) + bottom) / 2 = top * 2 ^ low + bottom / 2 := by omega
      rw [Nat.add_right_comm, reverseBits, reverseBits, hlast, hrest, ih hhalf,
        Nat.shiftLeft_eq, Nat.shiftLeft_eq, pow_add]
      ring

/-- Reversing twice gives the index back. -/
theorem reverseBits_reverseBits {width index : ℕ} (fits : index < 2 ^ width) :
    reverseBits width (reverseBits width index) = index := by
  induction width generalizing index with
  | zero =>
      have hzero : index = 0 := by simpa using fits
      rw [hzero, reverseBits]
  | succ width ih =>
      have hhalf : index / 2 < 2 ^ width := by
        rw [pow_succ] at fits
        omega
      have hbit : reverseBits 1 (index % 2) = index % 2 := by
        simp [reverseBits]
      have hstep : reverseBits (width + 1) index =
          index % 2 * 2 ^ width + reverseBits width (index / 2) := by
        rw [reverseBits, Nat.shiftLeft_eq]
      rw [hstep, reverseBits_split 1 (index % 2) (reverseBits_lt width (index / 2)), ih hhalf,
        hbit, pow_one]
      omega

theorem reverseBits_injOn (width : ℕ) :
    Set.InjOn (reverseBits width) (Set.Iio (2 ^ width)) := by
  intro first hfirst second hsecond hequal
  rw [← reverseBits_reverseBits hfirst, hequal, reverseBits_reverseBits hsecond]

/-- Only the lowest bits count. -/
theorem reverseBits_mod (width index : ℕ) :
    reverseBits width (index % 2 ^ width) = reverseBits width index := by
  have h := reverseBits_split 0 (index / 2 ^ width) (Nat.mod_lt index (Nat.two_pow_pos width))
  rw [add_zero, mul_comm, Nat.div_add_mod, pow_zero, mul_one] at h
  simpa [reverseBits] using h.symm

end Index

section Order

variable {α : Type}

theorem size_exchangeReversed (width : ℕ) (values : Array α) (index : ℕ) :
    (exchangeReversed width values index).size = values.size := by
  rw [exchangeReversed]
  split <;> simp

theorem size_foldl_exchangeReversed (width : ℕ) (values : Array α) (indices : List ℕ) :
    (indices.foldl (exchangeReversed width) values).size = values.size := by
  induction indices generalizing values with
  | nil => rfl
  | cons first rest ih => rw [List.foldl_cons, ih, size_exchangeReversed]

/-- An exchange moves an entry exactly if the smaller one of it and its partner is
the index. -/
private theorem getElem?_exchangeReversed {width : ℕ} {values : Array α}
    (size : values.size = 2 ^ width) (place : ℕ) {index : ℕ} (inside : index < 2 ^ width) :
    (exchangeReversed width values place)[index]? =
      if min index (reverseBits width index) = place then values[reverseBits width index]?
      else values[index]? := by
  have hback := reverseBits_reverseBits inside
  have hpartner := reverseBits_lt width place
  rw [exchangeReversed]
  by_cases hsmaller : place < reverseBits width place
  · rw [if_pos hsmaller]
    have hplace : place < 2 ^ width := hsmaller.trans hpartner
    have hplaceBack := reverseBits_reverseBits hplace
    rw [Array.swapIfInBounds_def, dif_pos (by rwa [size]), dif_pos (by rwa [size]),
      Array.getElem?_swap]
    by_cases hright : reverseBits width place = index
    · subst hright
      rw [if_pos rfl, hplaceBack, if_pos (min_eq_right hsmaller.le), Array.getElem?_eq_getElem]
    · by_cases hleft : place = index
      · subst hleft
        rw [if_neg hright, if_pos rfl, if_pos (min_eq_left hsmaller.le),
          Array.getElem?_eq_getElem]
      · have hne : reverseBits width index ≠ place := fun hequal => hright (by rw [← hequal, hback])
        rw [if_neg hright, if_neg hleft, if_neg (by omega)]
  · rw [if_neg hsmaller]
    by_cases hsmallest : min index (reverseBits width index) = place
    · have hself : reverseBits width index = index := by
        rcases min_choice index (reverseBits width index) with hmin | hmin
        · rw [← hsmallest, hmin] at hsmaller
          omega
        · rw [← hsmallest, hmin, hback] at hsmaller
          omega
      rw [if_pos hsmallest, hself]
    · rw [if_neg hsmallest]

/-- After the exchanges of the indices below `count`, an entry has been moved
exactly if it or its partner is one of them. -/
private theorem getElem?_foldl_exchangeReversed {width : ℕ} {values : Array α}
    (size : values.size = 2 ^ width) (count : ℕ) {index : ℕ} (inside : index < 2 ^ width) :
    ((List.range count).foldl (exchangeReversed width) values)[index]? =
      if min index (reverseBits width index) < count then values[reverseBits width index]?
      else values[index]? := by
  induction count generalizing index with
  | zero => simp
  | succ count ih =>
      have hsize := (size_foldl_exchangeReversed width values (List.range count)).trans size
      rw [List.range_succ, List.foldl_append, List.foldl_cons, List.foldl_nil,
        getElem?_exchangeReversed hsize count inside]
      by_cases hsmallest : min index (reverseBits width index) = count
      · have hlater : ¬min (reverseBits width index) index < count := by
          rw [min_comm, hsmallest]
          exact lt_irrefl count
        rw [if_pos hsmallest, ih (reverseBits_lt width index), reverseBits_reverseBits inside,
          if_neg hlater, if_pos (hsmallest.trans_lt count.lt_succ_self)]
      · rw [if_neg hsmallest, ih inside]
        congr 1
        simp only [eq_iff_iff]
        omega

@[simp]
theorem size_reverseOrder (width : ℕ) (values : Array α) :
    (reverseOrder width values).size = values.size :=
  size_foldl_exchangeReversed width values _

/-- The exchanges gather the word along the reversed index. -/
theorem getElem?_reverseOrder {width : ℕ} {values : Array α} (size : values.size = 2 ^ width)
    {index : ℕ} (inside : index < 2 ^ width) :
    (reverseOrder width values)[index]? = values[reverseBits width index]? := by
  rw [reverseOrder, getElem?_foldl_exchangeReversed size _ inside, size,
    if_pos (min_lt_of_left_lt inside)]

theorem reverseOrder_ofFn (width : ℕ) (entry : ℕ → α) :
    reverseOrder width (Array.ofFn fun index : Fin (2 ^ width) => entry index) =
      Array.ofFn fun index : Fin (2 ^ width) => entry (reverseBits width index) := by
  apply Array.ext_getElem?
  intro index
  by_cases hinside : index < 2 ^ width
  · rw [getElem?_reverseOrder (by simp) hinside]
    simp [hinside, reverseBits_lt]
  · rw [Array.getElem?_eq_none (by simpa using hinside),
      Array.getElem?_eq_none (by simpa using hinside)]

/-- Permuting a word twice gives the word back. -/
theorem reverseOrder_reverseOrder {width : ℕ} {values : Array α}
    (size : values.size = 2 ^ width) :
    reverseOrder width (reverseOrder width values) = values := by
  apply Array.ext_getElem?
  intro index
  by_cases hinside : index < 2 ^ width
  · rw [getElem?_reverseOrder (by simpa) hinside,
      getElem?_reverseOrder size (reverseBits_lt _ _), reverseBits_reverseBits hinside]
  · rw [Array.getElem?_eq_none (by simpa [size] using hinside),
      Array.getElem?_eq_none (by simpa [size] using hinside)]

/-- An exchange loses nothing, wherever it acts. -/
theorem exchangeReversed_perm (width : ℕ) (values : Array α) (index : ℕ) :
    (exchangeReversed width values index).Perm values := by
  rw [exchangeReversed, Array.swapIfInBounds_def]
  split_ifs
  · exact Array.swap_perm _ _
  all_goals exact .refl values

/-- The entries of the permuted word are those of the word, each as often as before. -/
theorem reverseOrder_perm (width : ℕ) (values : Array α) :
    (reverseOrder width values).Perm values :=
  List.foldlRecOn (motive := fun word => word.Perm values) _ _ (.refl values)
    fun word hperm index _ => (exchangeReversed_perm width word index).trans hperm

/-- A word whose length is a power of two is permuted. -/
theorem bitReversed?_of_size {width : ℕ} {values : Array α} (size : values.size = 2 ^ width) :
    bitReversed? values = .ok (reverseOrder width values) := by
  rw [bitReversed?]
  by_cases hsmall : values.size ≤ 1
  · rw [if_pos hsmall]
    have hwidth : width = 0 := by
      by_contra hne
      have := Nat.one_lt_two_pow hne
      omega
    subst hwidth
    congr 1
    refine (Array.ext_getElem? fun index => ?_).symm
    by_cases hinside : index < 2 ^ 0
    · have hzero : index = 0 := by simpa using hinside
      rw [getElem?_reverseOrder size hinside, hzero, reverseBits]
    · rw [Array.getElem?_eq_none (by simpa [size] using not_lt.mp hinside),
        Array.getElem?_eq_none (by simpa [size] using not_lt.mp hinside)]
  · rw [if_neg hsmall, size, exactLog2_two_pow]

/-- Only a word whose length is neither zero nor a power of two is refused. -/
theorem bitReversed?_eq_error_iff {values : Array α} {fault : Fault} :
    bitReversed? values = .error fault ↔
      fault = .lengthNotPowerOfTwo values.size ∧ values.size ≠ 0 ∧
        ∀ width, values.size ≠ 2 ^ width := by
  by_cases hpower : ∃ width, values.size = 2 ^ width
  · obtain ⟨width, size⟩ := hpower
    rw [bitReversed?_of_size size]
    exact iff_of_false (fun h => by cases h) fun h => h.2.2 width size
  · have hirregular := not_exists.mp hpower
    rw [bitReversed?, exactLog2_eq_none_iff.mpr hirregular]
    by_cases hempty : values.size = 0
    · rw [if_pos (by omega)]
      exact iff_of_false (fun h => by cases h) fun h => h.2.1 hempty
    · have hone : values.size ≠ 1 := hirregular 0
      rw [if_neg (by omega), Except.error.injEq, eq_comm]
      exact (and_iff_left ⟨hempty, hirregular⟩).symm

end Order
end OracleProofs

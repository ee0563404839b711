/-
# The binary field is lawful

To multiply by an element is to add up the powers of the map `timesX` that
belong to its set bits. That map is additive, so every such sum is additive and
any two of them can be exchanged, and the sum that belongs to an element sends
one to this element. The laws of multiplication follow from these facts, and no
product has to be looked at as a polynomial. Inverses come from the order of
`x`: it is 65535, so the powers of `x` are all elements other than zero.
-/

import Mathlib
import OracleProofs.Field.Extension
import OracleProofs.Proofs.Field.Laws
import OracleProofs.Proofs.Field.Prime

namespace OracleProofs
namespace BinaryField

section Words

/-- What comes back through the modulus when the coefficient of `x ^ 15` leaves. -/
private def carry (leaves : Bool) : UInt16 := if leaves then reduction else 0

private theorem carry_xor (a b : Bool) : carry (a ^^ b) = carry a ^^^ carry b := by
  cases a <;> cases b <;> decide

private theorem timesX_eq (word : UInt16) :
    timesX word = (word <<< 1) ^^^ carry word.toBitVec.msb := by
  have hlow : word < 0x8000 ↔ word.toBitVec.msb = false := by
    rw [BitVec.msb_eq_false_iff_two_mul_lt, UInt16.lt_iff_toNat_lt]
    change word.toNat < 32768 ↔ 2 * word.toNat < 65536
    omega
  rw [timesX]
  by_cases hmsb : word.toBitVec.msb = false
  · rw [if_pos (hlow.mpr hmsb), hmsb, carry, if_neg Bool.false_ne_true, UInt16.xor_zero]
  · rw [if_neg (mt hlow.mp hmsb), Bool.eq_true_of_not_eq_false hmsb, carry, if_pos rfl]

theorem timesX_xor (a b : UInt16) : timesX (a ^^^ b) = timesX a ^^^ timesX b := by
  have hmsb : (a ^^^ b).toBitVec.msb = (a.toBitVec.msb ^^ b.toBitVec.msb) := by
    rw [UInt16.toBitVec_xor, BitVec.msb_xor]
  rw [timesX_eq, timesX_eq, timesX_eq, hmsb, carry_xor, UInt16.shiftLeft_xor]
  ac_rfl

theorem timesX_zero : timesX 0 = 0 := by decide

private theorem and_one_eq_zero_iff (word : UInt16) :
    word &&& 1 = 0 ↔ word.toBitVec.getLsbD 0 = false := by
  rw [← UInt16.toNat_inj, UInt16.toNat_and, BitVec.getLsbD, UInt16.toNat_toBitVec,
    Nat.testBit_zero]
  change word.toNat &&& 1 = 0 ↔ _
  rw [Nat.and_one_is_mod, decide_eq_false_iff_not]
  omega

/-- The summand of the lowest bit of `right`, followed by the others. -/
private theorem mulBits_succ (count : ℕ) (left right : UInt16) :
    mulBits (count + 1) left right =
      (if right.toBitVec.getLsbD 0 then left else 0) ^^^
        mulBits count (timesX left) (right >>> 1) := by
  rw [mulBits]
  cases hbit : right.toBitVec.getLsbD 0 with
  | false => simp only [if_pos ((and_one_eq_zero_iff right).mpr hbit), if_neg Bool.false_ne_true,
      UInt16.zero_xor]
  | true =>
      have hset : right &&& 1 ≠ 0 := fun hzero => by
        rw [(and_one_eq_zero_iff right).mp hzero] at hbit
        cases hbit
      simp only [if_neg hset, if_true]

theorem mulBits_xor_left (count : ℕ) (a b right : UInt16) :
    mulBits count (a ^^^ b) right = mulBits count a right ^^^ mulBits count b right := by
  induction count generalizing a b right with
  | zero => exact UInt16.xor_zero.symm
  | succ count ih =>
      rw [mulBits_succ, mulBits_succ, mulBits_succ, timesX_xor, ih]
      cases right.toBitVec.getLsbD 0
      · simp only [if_neg Bool.false_ne_true, UInt16.zero_xor]
      · simp only [if_true]
        ac_rfl

theorem mulBits_zero_left (count : ℕ) (right : UInt16) : mulBits count 0 right = 0 := by
  have hself := mulBits_xor_left count 0 0 right
  rwa [UInt16.xor_self, UInt16.xor_self] at hself

private theorem summand_xor (left : UInt16) (a b : Bool) :
    (if (a ^^ b) then left else 0) = (if a then left else 0) ^^^ (if b then left else 0) := by
  cases a <;> cases b <;> simp

theorem mulBits_xor_right (count : ℕ) (left a b : UInt16) :
    mulBits count left (a ^^^ b) = mulBits count left a ^^^ mulBits count left b := by
  induction count generalizing left a b with
  | zero => exact UInt16.xor_zero.symm
  | succ count ih =>
      rw [mulBits_succ, mulBits_succ, mulBits_succ, UInt16.shiftRight_xor, ih,
        UInt16.toBitVec_xor, BitVec.getLsbD_xor, summand_xor]
      ac_rfl

/-- Multiplication by `x` can be exchanged with multiplication by any element. -/
theorem mulBits_timesX (count : ℕ) (left right : UInt16) :
    mulBits count (timesX left) right = timesX (mulBits count left right) := by
  induction count generalizing left right with
  | zero => exact timesX_zero.symm
  | succ count ih =>
      rw [mulBits_succ, mulBits_succ, ih, timesX_xor]
      cases right.toBitVec.getLsbD 0
      · rw [if_neg Bool.false_ne_true, if_neg Bool.false_ne_true, timesX_zero]
      · rw [if_pos rfl, if_pos rfl]

/-- Multiplications by two elements can be exchanged. -/
theorem mulBits_mulBits (count other : ℕ) (left a b : UInt16) :
    mulBits count (mulBits other left a) b = mulBits other (mulBits count left b) a := by
  induction count generalizing left b with
  | zero => exact (mulBits_zero_left other a).symm
  | succ count ih =>
      rw [mulBits_succ, mulBits_succ, mulBits_xor_left, ← mulBits_timesX, ih]
      cases b.toBitVec.getLsbD 0
      · rw [if_neg Bool.false_ne_true, if_neg Bool.false_ne_true, mulBits_zero_left]
      · rw [if_pos rfl, if_pos rfl]

private theorem shiftLeft_of_lowest (word : BitVec 16) {place : ℕ} (inside : place < 16) :
    (if word.getLsbD 0 then 1#16 <<< place else 0#16) ^^^ (word >>> 1) <<< (place + 1) =
      word <<< place := by
  apply BitVec.eq_of_getLsbD_eq
  intro bit hbit
  rcases lt_trichotomy bit place with hlow | rfl | hhigh
  · cases word.getLsbD 0 <;> simp [hbit, hlow, Nat.lt_succ_of_lt hlow]
  · cases hword : word.getLsbD 0 <;> simp [hbit, hword, -BitVec.getLsbD_eq_getElem]
  · have hplace : 1 + (bit - (place + 1)) = bit - place := by omega
    have hother : bit - place ≠ 0 := by omega
    cases word.getLsbD 0 <;> simp [hbit, hplace, hother, hhigh.not_gt, Nat.not_lt.mpr hhigh,
      -BitVec.getLsbD_eq_getElem]

private theorem timesX_shifted :
    ∀ place < 15, timesX (.ofBitVec (1#16 <<< place)) = .ofBitVec (1#16 <<< (place + 1)) := by
  decide

private theorem toBitVec_shiftRight_one (word : UInt16) :
    (word >>> 1).toBitVec = word.toBitVec >>> 1 := rfl

private theorem toBitVec_summand (bit : Bool) (word : BitVec 16) :
    (if bit then UInt16.ofBitVec word else 0).toBitVec = if bit then word else 0#16 := by
  cases bit <;> rfl

/-- What the bits of `right` contribute to a product with the element of one bit, as long as no
product with `x` passes the modulus. -/
private theorem mulBits_shifted (count : ℕ) {place : ℕ} (covers : place + (count + 1) = 16)
    (right : UInt16) :
    (mulBits (count + 1) (.ofBitVec (1#16 <<< place)) right).toBitVec =
      right.toBitVec <<< place := by
  induction count generalizing place right with
  | zero =>
      obtain rfl : place = 15 := by omega
      rw [mulBits_succ, mulBits, UInt16.xor_zero, toBitVec_summand,
        ← shiftLeft_of_lowest right.toBitVec (Nat.lt_succ_self 15),
        BitVec.shiftLeft_eq_zero le_rfl, BitVec.xor_zero]
  | succ count ih =>
      rw [mulBits_succ, timesX_shifted place (by omega), UInt16.toBitVec_xor, toBitVec_summand,
        ih (by omega), toBitVec_shiftRight_one, shiftLeft_of_lowest _ (by omega)]

theorem mulBits_one (right : UInt16) : mulBits 16 1 right = right := by
  apply UInt16.toBitVec_inj.mp
  have hshifted := mulBits_shifted 15 (Nat.zero_add 16) right
  rwa [BitVec.shiftLeft_zero, BitVec.shiftLeft_zero] at hshifted

end Words

section Laws

@[ext]
theorem ext {a b : BinaryField} (bits : a.bits = b.bits) : a = b := by
  cases a
  cases b
  exact congrArg mk bits

@[simp]
theorem bits_add (a b : BinaryField) : (a + b).bits = a.bits ^^^ b.bits := rfl

@[simp]
theorem bits_mul (a b : BinaryField) : (a * b).bits = mulBits 16 a.bits b.bits := rfl

@[simp]
theorem bits_zero : (0 : BinaryField).bits = 0 := rfl

@[simp]
theorem bits_one : (1 : BinaryField).bits = 1 := rfl

private theorem one_mul_bits (a : BinaryField) : 1 * a = a :=
  ext (mulBits_one a.bits)

private theorem mul_comm_bits (a b : BinaryField) : a * b = b * a := by
  apply ext
  calc
    mulBits 16 a.bits b.bits = mulBits 16 (mulBits 16 1 a.bits) b.bits := by rw [mulBits_one]
    _ = mulBits 16 (mulBits 16 1 b.bits) a.bits := mulBits_mulBits _ _ _ _ _
    _ = mulBits 16 b.bits a.bits := by rw [mulBits_one]

private theorem mul_assoc_bits (a b c : BinaryField) : a * b * c = a * (b * c) := by
  calc
    a * b * c = b * a * c := by rw [mul_comm_bits a b]
    _ = b * c * a := ext (mulBits_mulBits _ _ _ _ _)
    _ = a * (b * c) := mul_comm_bits _ _

/-- Multiplication makes the elements a commutative monoid, in which orders can be spoken of. -/
local instance : CommMonoid BinaryField where
  mul_assoc := mul_assoc_bits
  one_mul := one_mul_bits
  mul_one a := (mul_comm_bits a 1).trans (one_mul_bits a)
  mul_comm := mul_comm_bits

/-- The element `x`, whose powers are all elements other than zero. -/
def generator : BinaryField := ⟨2⟩

theorem orderOf_generator : orderOf generator = 65535 := by
  apply orderOf_eq_of_pow_and_pow_div_prime (by norm_num)
  · rw [← power_eq_pow]
    decide +kernel
  · intro p hprime hdvd
    have hfactors : (65535 : ℕ) = 3 * 5 * 17 * 257 := by norm_num
    rw [hfactors, hprime.dvd_mul, hprime.dvd_mul, hprime.dvd_mul,
      Nat.prime_dvd_prime_iff_eq hprime Nat.prime_three,
      Nat.prime_dvd_prime_iff_eq hprime Nat.prime_five,
      Nat.prime_dvd_prime_iff_eq hprime (by norm_num : Nat.Prime 17),
      Nat.prime_dvd_prime_iff_eq hprime (by norm_num : Nat.Prime 257)] at hdvd
    rw [← power_eq_pow]
    rcases hdvd with ((rfl | rfl) | rfl) | rfl <;> decide +kernel

private theorem generator_pow_pow (exponent : ℕ) : (generator ^ exponent) ^ 65535 = 1 := by
  rw [← pow_mul, mul_comm, pow_mul, ← orderOf_generator, pow_orderOf_eq_one, one_pow]

private theorem generator_pow_ne_zero (exponent : ℕ) : generator ^ exponent ≠ 0 := by
  intro hzero
  have hone := generator_pow_pow exponent
  rw [hzero, ← power_eq_pow] at hone
  exact absurd hone (by decide +kernel)

/-- There are as many elements other than zero as powers of the generator. -/
theorem exists_generator_pow_eq {a : BinaryField} (nonzero : a ≠ 0) :
    ∃ exponent : ℕ, generator ^ exponent = a := by
  let number (exponent : ℕ) : ℕ := (generator ^ exponent).bits.toNat
  have hbits {b c : BinaryField} (hequal : b.bits.toNat = c.bits.toNat) : b = c :=
    ext (UInt16.toNat_inj.mp hequal)
  have hrange (b : BinaryField) (hne : b ≠ 0) : b.bits.toNat ∈ Finset.Ico 1 65536 := by
    refine Finset.mem_Ico.mpr ⟨Nat.pos_of_ne_zero fun hzero => hne (hbits hzero), ?_⟩
    exact b.bits.toNat_lt
  have hinjective : Set.InjOn number (Finset.range 65535) := by
    intro first hfirst second hsecond hequal
    rw [← orderOf_generator] at hfirst hsecond
    exact pow_injOn_Iio_orderOf (by simpa using hfirst) (by simpa using hsecond) (hbits hequal)
  have himage : (Finset.range 65535).image number = Finset.Ico 1 65536 := by
    apply Finset.eq_of_subset_of_card_le
    · intro value hvalue
      obtain ⟨exponent, -, rfl⟩ := Finset.mem_image.mp hvalue
      exact hrange _ (generator_pow_ne_zero exponent)
    · rw [Finset.card_image_of_injOn hinjective, Finset.card_range, Nat.card_Ico]
  obtain ⟨exponent, -, hexponent⟩ := Finset.mem_image.mp (himage ▸ hrange a nonzero)
  exact ⟨exponent, hbits hexponent⟩

private theorem mul_inv_of_ne_zero {a : BinaryField} (nonzero : a ≠ 0) : a * a⁻¹ = 1 := by
  obtain ⟨exponent, rfl⟩ := exists_generator_pow_eq nonzero
  have hinverse : (generator ^ exponent)⁻¹ = (generator ^ exponent) ^ 65534 := power_eq_pow _ _
  rw [hinverse, ← pow_succ']
  exact generator_pow_pow exponent

instance : LawfulField BinaryField where
  add_assoc a b c := ext (UInt16.xor_assoc _ _ _)
  zero_add a := ext UInt16.zero_xor
  add_comm a b := ext (UInt16.xor_comm _ _)
  neg_add_cancel a := ext UInt16.xor_self
  sub_eq_add_neg a b := rfl
  mul_assoc := mul_assoc_bits
  one_mul := one_mul_bits
  mul_comm := mul_comm_bits
  mul_add a b c := ext (mulBits_xor_right _ _ _ _)
  zero_ne_one := by decide
  mul_inv_cancel a := mul_inv_of_ne_zero
  inv_zero := by decide +kernel
  power_root := by decide +kernel
  power_root_ne_one htwo := absurd rfl htwo
  encode_length a b := (length_littleEndian _ _).trans (length_littleEndian _ _).symm
  encode_injective a b hequal := by
    have hbound (c : BinaryField) : c.bits.toNat ∈ Set.Iio (256 ^ 8) :=
      c.bits.toNat_lt.trans (by norm_num)
    exact ext (UInt16.toNat_inj.mp (littleEndian_injOn 8 (hbound a) (hbound b) hequal))

end Laws

end BinaryField
end OracleProofs

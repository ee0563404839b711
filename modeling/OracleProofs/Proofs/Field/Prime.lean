/-
# The prime fields are lawful

Residues compute like the integers modulo `p` of the mathematical library, so
the field laws carry over once `p` is known to be prime. Primality is proved by
Lucas' criterion from the generator that comes with each prime: its power to
`p - 1` is one, and no power to a proper divisor of `p - 1` is. The powers are
taken with the same repeated squaring that the fields run with.
-/

import Mathlib
import OracleProofs.Field.Prime
import OracleProofs.Proofs.Field.Laws

namespace OracleProofs

section LittleEndian

@[simp]
theorem length_littleEndian (count number : ℕ) : (littleEndian count number).length = count := by
  induction count generalizing number with
  | zero => rfl
  | succ count ih => rw [littleEndian, List.length_cons, ih]

/-- Bytes determine the number if there are enough of them. -/
theorem littleEndian_injOn (count : ℕ) :
    Set.InjOn (littleEndian count) (Set.Iio (256 ^ count)) := by
  induction count with
  | zero =>
      intro first hfirst second hsecond _
      simp only [pow_zero, Set.mem_Iio] at hfirst hsecond
      omega
  | succ count ih =>
      intro first hfirst second hsecond hequal
      obtain ⟨hbyte, hrest⟩ := List.cons.inj hequal
      have hhigh : first / 256 = second / 256 := by
        apply ih _ _ hrest
        · exact Nat.div_lt_of_lt_mul (by rwa [← pow_succ'])
        · exact Nat.div_lt_of_lt_mul (by rwa [← pow_succ'])
      have hlow : first % 256 = second % 256 := by
        have := congrArg UInt8.toNat hbyte
        simpa using this
      omega

end LittleEndian

namespace Residue

variable {p : ℕ} [TwoAdicPrime p]

local instance : FiniteField (Residue p) := field p

/-- The same residue class in the mathematical library. -/
def toZMod (a : Residue p) : ZMod p := (a.value.val : ZMod p)

omit [TwoAdicPrime p] in
theorem toZMod_injective : Function.Injective (toZMod : Residue p → ZMod p) := by
  intro a b hequal
  have hmod := (ZMod.natCast_eq_natCast_iff' _ _ _).mp hequal
  rw [Nat.mod_eq_of_lt a.value.isLt, Nat.mod_eq_of_lt b.value.isLt] at hmod
  cases a
  cases b
  exact congrArg Residue.mk (Fin.ext hmod)

@[simp]
theorem toZMod_ofNat (number : ℕ) : toZMod (ofNat number : Residue p) = number := by
  rw [toZMod, ofNat, ZMod.natCast_mod]

theorem toZMod_zero : toZMod (0 : Residue p) = 0 := by
  exact (toZMod_ofNat 0).trans Nat.cast_zero

theorem toZMod_one : toZMod (1 : Residue p) = 1 := by
  exact (toZMod_ofNat 1).trans Nat.cast_one

theorem toZMod_add (a b : Residue p) : toZMod (a + b) = toZMod a + toZMod b := by
  have hval : (a + b).value.val = (a.value.val + b.value.val) % p := Fin.val_add _ _
  rw [toZMod, hval, ZMod.natCast_mod, Nat.cast_add, toZMod, toZMod]

omit [TwoAdicPrime p] in
theorem toZMod_mul (a b : Residue p) : toZMod (a * b) = toZMod a * toZMod b := by
  have hval : (a * b).value.val = a.value.val * b.value.val % p := Fin.val_mul _ _
  rw [toZMod, hval, ZMod.natCast_mod, Nat.cast_mul, toZMod, toZMod]

theorem toZMod_neg (a : Residue p) : toZMod (-a) = -toZMod a := by
  have hval : (-a).value.val = (p - a.value.val) % p := rfl
  rw [toZMod, hval, ZMod.natCast_mod, Nat.cast_sub a.value.isLt.le, ZMod.natCast_self, zero_sub,
    toZMod]

theorem toZMod_sub (a b : Residue p) : toZMod (a - b) = toZMod a - toZMod b := by
  have hval : (a - b).value.val = (p - b.value.val + a.value.val) % p := rfl
  rw [toZMod, hval, ZMod.natCast_mod, Nat.cast_add, Nat.cast_sub b.value.isLt.le,
    ZMod.natCast_self, zero_sub, toZMod, toZMod, neg_add_eq_sub]

theorem toZMod_power (a : Residue p) (exponent : ℕ) :
    toZMod (power a exponent) = toZMod a ^ exponent :=
  power_hom toZMod toZMod_one toZMod_mul a exponent

theorem toZMod_inv (a : Residue p) : toZMod a⁻¹ = toZMod a ^ (p - 2) :=
  toZMod_power a (p - 2)

/-- Lucas' criterion for the generator, with the prime factors of `p - 1` and
their multiplicities. -/
theorem prime_of_generator (factors : List (ℕ × ℕ))
    (primes : ∀ factor ∈ factors, factor.1.Prime)
    (covers : p - 1 = (factors.map fun factor => factor.1 ^ factor.2).prod)
    (order : power (ofNat (TwoAdicPrime.generator p) : Residue p) (p - 1) = 1)
    (generates : ∀ factor ∈ factors,
      power (ofNat (TwoAdicPrime.generator p) : Residue p) ((p - 1) / factor.1) ≠ 1) :
    p.Prime := by
  apply lucas_primality p (TwoAdicPrime.generator p : ZMod p)
  · rw [← toZMod_ofNat, ← toZMod_power, order, toZMod_one]
  · intro q hq hdvd hpower
    rw [covers, hq.prime.dvd_prod_iff] at hdvd
    obtain ⟨_, hmem, hdvd⟩ := hdvd
    obtain ⟨factor, hfactor, rfl⟩ := List.mem_map.mp hmem
    have hequal : q = factor.1 :=
      (Nat.prime_dvd_prime_iff_eq hq (primes factor hfactor)).mp (hq.dvd_of_dvd_pow hdvd)
    apply generates factor hfactor
    apply toZMod_injective
    rw [toZMod_power, toZMod_ofNat, ← hequal, hpower, toZMod_one]

/-- The residues modulo an odd prime are a lawful field, if the generator leaves
the full two-adic order to the root and the words of an element hold it. -/
theorem lawfulField (prime : p.Prime) (odd : 2 < p)
    (fits : p ≤ 256 ^ (8 * TwoAdicPrime.words p))
    (root : power (FiniteField.twoAdicRoot : Residue p)
      (2 ^ FiniteField.twoAdicity (Residue p)) = 1)
    (root_ne : power (FiniteField.twoAdicRoot : Residue p)
      (2 ^ (FiniteField.twoAdicity (Residue p) - 1)) ≠ 1) :
    LawfulField (Residue p) := by
  have : Fact p.Prime := ⟨prime⟩
  have hlength (a : Residue p) : (FiniteField.encode a).length = 8 * TwoAdicPrime.words p :=
    length_littleEndian _ _
  exact
    { add_assoc := fun a b c => toZMod_injective (by simp only [toZMod_add, add_assoc])
      zero_add := fun a => toZMod_injective (by rw [toZMod_add, toZMod_zero, zero_add])
      add_comm := fun a b => toZMod_injective (by rw [toZMod_add, toZMod_add, add_comm])
      neg_add_cancel := fun a => toZMod_injective (by
        rw [toZMod_add, toZMod_neg, toZMod_zero, neg_add_cancel])
      sub_eq_add_neg := fun a b => toZMod_injective (by
        rw [toZMod_sub, toZMod_add, toZMod_neg, sub_eq_add_neg])
      mul_assoc := fun a b c => toZMod_injective (by simp only [toZMod_mul, mul_assoc])
      one_mul := fun a => toZMod_injective (by rw [toZMod_mul, toZMod_one, one_mul])
      mul_comm := fun a b => toZMod_injective (by rw [toZMod_mul, toZMod_mul, mul_comm])
      mul_add := fun a b c => toZMod_injective (by simp only [toZMod_mul, toZMod_add, mul_add])
      zero_ne_one := fun hequal => zero_ne_one (α := ZMod p) (by
        rw [← toZMod_zero, hequal, toZMod_one])
      mul_inv_cancel := by
        intro a hne
        have hcast : toZMod a ≠ 0 := by
          intro hzero
          exact hne (toZMod_injective (hzero.trans toZMod_zero.symm))
        apply toZMod_injective
        rw [toZMod_mul, toZMod_inv, ← pow_succ', toZMod_one, ← ZMod.pow_card_sub_one_eq_one hcast]
        congr 1
        omega
      inv_zero := by
        apply toZMod_injective
        rw [toZMod_inv, toZMod_zero, zero_pow (by omega)]
      power_root := root
      power_root_ne_one := fun _ => root_ne
      encode_length := fun a b => (hlength a).trans (hlength b).symm
      encode_injective := by
        intro a b hequal
        have hval := littleEndian_injOn _ (a.value.isLt.trans_le fits) (b.value.isLt.trans_le fits)
          hequal
        cases a
        cases b
        exact congrArg Residue.mk (Fin.ext hval) }

end Residue

theorem prime_goldilocksPrime : goldilocksPrime.Prime :=
  Residue.prime_of_generator [(2, 32), (3, 1), (5, 1), (17, 1), (257, 1), (65537, 1)]
    (by norm_num) (by decide +kernel) (by decide +kernel) (by decide +kernel)

instance : LawfulField Goldilocks :=
  Residue.lawfulField prime_goldilocksPrime (by norm_num) (by decide +kernel)
    (by decide +kernel) (by decide +kernel)

theorem prime_babyBearPrime : babyBearPrime.Prime :=
  Residue.prime_of_generator [(2, 27), (3, 1), (5, 1)]
    (by norm_num) (by decide +kernel) (by decide +kernel) (by decide +kernel)

instance : LawfulField BabyBear :=
  Residue.lawfulField prime_babyBearPrime (by norm_num) (by decide +kernel)
    (by decide +kernel) (by decide +kernel)

theorem prime_blsScalarPrime : blsScalarPrime.Prime :=
  Residue.prime_of_generator [(2, 32), (3, 1), (11, 1), (19, 1), (10177, 1), (125527, 1),
      (859267, 1), (906349, 2), (2508409, 1), (2529403, 1), (52437899, 1), (254760293, 2)]
    (by norm_num) (by decide +kernel) (by decide +kernel) (by decide +kernel)

instance : LawfulField BlsScalar :=
  Residue.lawfulField prime_blsScalarPrime (by norm_num) (by decide +kernel)
    (by decide +kernel) (by decide +kernel)

end OracleProofs

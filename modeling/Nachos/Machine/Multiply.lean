import Mathlib.Algebra.Order.Ring.Int
import Mathlib.Algebra.Order.Ring.Abs
import Mathlib.Data.BitVec
import Nachos.Lib.DoubleWord
import Nachos.Machine.MipsSim

/-! `Mult` is exact. Its loop keeps the multiplicand and the sum as double words
in two halves, and shifts the multiplier arithmetically; of a negative
multiplier that leaves only ones above the bits still to be looked at, so the
rounds left bound what counts of it. -/

namespace Nachos
open Lib

theorem and_one_ne_zero (x : BitVec 32) : x &&& 1 ≠ 0 ↔ x.toNat % 2 = 1 := by
  rw [← BitVec.toNat_ne_iff_ne, BitVec.toNat_and]
  have h := Nat.and_two_pow_sub_one_eq_mod x.toNat 1
  simp at h ⊢

theorem and_rest_eq_zero (x : BitVec 32) : x &&& 0xfffffffe = 0 ↔ x.toNat < 2 := by
  rw [← BitVec.toNat_inj, BitVec.toNat_and]
  have hdiv : (x.toNat &&& 0xfffffffe) / 2 = x.toNat / 2 := by
    have hlt := x.isLt
    rw [Nat.and_div_two, show 0xfffffffe / 2 = 2 ^ 31 - 1 by decide,
      Nat.and_two_pow_sub_one_eq_mod, Nat.mod_eq_of_lt (by omega)]
  have hmod : (x.toNat &&& 0xfffffffe) % 2 = 0 := by
    have h := @Nat.and_mod_two_pow x.toNat 0xfffffffe 1
    simpa using h
  simp at hdiv hmod ⊢
  omega

/-- The high half takes over the top bit of the low one. -/
theorem shift_multiplicand (bHi bLo : BitVec 32) :
    (bHi <<< 1) ||| (if bLo &&& 0x80000000 ≠ 0 then 1 else 0) = bHi.shiftConcat bLo.msb := by
  have hmsb : (bLo &&& 0x80000000 ≠ 0) = (bLo.msb = true) := propext (and_signBit_ne_zero bLo)
  simp only [hmsb]
  apply BitVec.eq_of_getLsbD_eq
  intro i hi
  rw [BitVec.getLsbD_or, BitVec.getLsbD_shiftLeft, BitVec.getLsbD_shiftConcat]
  cases bLo.msb with
  | false => cases i <;> simp_all
  | true => cases i <;> simp_all

/-- What counts of the multiplier with `n + 1` rounds left. -/
theorem mod_succ_sshiftRight {n : Nat} (hn : n < 32) (a : BitVec 32) :
    a.toNat % 2 ^ (n + 1) = a.toNat % 2 + 2 * ((a.sshiftRight 1).toNat % 2 ^ n) := by
  have hrest : (a.sshiftRight 1).toNat % 2 ^ n = a.toNat / 2 % 2 ^ n := by
    apply Nat.eq_of_testBit_eq
    intro i
    rw [Nat.testBit_mod_two_pow, Nat.testBit_mod_two_pow, Nat.testBit_div_two,
      BitVec.testBit_toNat, BitVec.testBit_toNat, BitVec.getLsbD_sshiftRight]
    by_cases hi : i < n
    · have hlt : ¬ 32 ≤ i := by omega
      have hin : 1 + i < 32 := by omega
      rw [if_pos hin, Nat.add_comm 1 i]
      simp [hlt]
    · simp [hi]
  rw [hrest, Nat.pow_succ', Nat.mod_mul]

/-- Each round adds the multiplicand if the multiplier's low bit is set, and
doubles it. -/
theorem multLoop_spec (n : Nat) (hn : n ≤ 32) (a bHi bLo hi lo : BitVec 32) :
    (multLoop n a bHi bLo hi lo).1 ++ (multLoop n a bHi bLo hi lo).2 =
      (hi ++ lo) + BitVec.ofNat 64 (a.toNat % 2 ^ n) * (bHi ++ bLo) := by
  induction n generalizing a bHi bLo hi lo with
  | zero => simp [multLoop, Nat.mod_one]
  | succ n ih =>
    have hrest := mod_succ_sshiftRight (by omega : n < 32) a
    have hdouble (x : BitVec 64) :
        BitVec.ofNat 64 (2 * ((a.sshiftRight 1).toNat % 2 ^ n)) * x =
          BitVec.ofNat 64 ((a.sshiftRight 1).toNat % 2 ^ n) * (x + x) := by
      rw [BitVec.ofNat_mul]
      change (2 : BitVec 64) * _ * x = _
      ring
    simp only [multLoop, shift_multiplicand]
    by_cases hbit : a &&& 1 ≠ 0
    · rw [if_pos hbit]
      rw [and_one_ne_zero] at hbit
      by_cases hlast : a &&& 0xfffffffe = 0
      · rw [if_pos hlast]
        rw [and_rest_eq_zero] at hlast
        have ha : a.toNat % 2 ^ (n + 1) = 1 := by
          rw [Nat.mod_eq_of_lt]
          · omega
          · rw [Nat.pow_succ]
            have := Nat.two_pow_pos n
            omega
        rw [halves_add, ha]
        simp
      · rw [if_neg hlast, ih (by omega), halves_add, halves_double, hrest, hbit, BitVec.ofNat_add,
          BitVec.add_mul, hdouble]
        change _ = _ + ((1 : BitVec 64) * _ + _)
        ring
    · rw [if_neg hbit, ih (by omega), halves_double, hrest]
      rw [and_one_ne_zero] at hbit
      rw [show a.toNat % 2 = 0 by omega, Nat.zero_add, hdouble]

/-- The product of the two words, as a double word. -/
theorem multLoop_product (a b : BitVec 32) :
    (multLoop 32 a 0 b 0 0).1 ++ (multLoop 32 a 0 b 0 0).2 =
      BitVec.ofNat 64 (a.toNat * b.toNat) := by
  rw [multLoop_spec 32 (by omega), Nat.mod_eq_of_lt a.isLt, BitVec.ofNat_mul]
  have hb : (0 : BitVec 32) ++ b = BitVec.ofNat 64 b.toNat := by
    apply BitVec.eq_of_toNat_eq
    rw [toNat_halves, BitVec.toNat_ofNat, Nat.mod_eq_of_lt (by have := b.isLt; omega)]
    simp
  rw [hb]
  simp

theorem negateDouble_eq (hi lo : BitVec 32) :
    (negateDouble hi lo).1 ++ (negateDouble hi lo).2 = -(hi ++ lo) :=
  halves_neg (by decide) hi lo

/-- The operand made positive: its magnitude, that of `INT_MIN` included. -/
theorem toNat_magnitude (a : BitVec 32) :
    ((if a.slt 0 then -a else a).toNat : Int) = |a.toInt| := by
  have hlt := a.isLt
  have hint := BitVec.toInt_eq_toNat_cond a
  by_cases hneg : a.slt 0 = true
  · rw [if_pos hneg]
    rw [BitVec.slt_iff_toInt_lt, show (0 : BitVec 32).toInt = 0 by decide] at hneg
    rw [abs_of_neg hneg, BitVec.toNat_neg]
    split at hint <;> omega
  · rw [if_neg hneg]
    rw [BitVec.slt_iff_toInt_lt, show (0 : BitVec 32).toInt = 0 by decide] at hneg
    rw [abs_of_nonneg (by omega)]
    split at hint <;> omega

theorem slt_zero (a : BitVec 32) : a.slt 0 = decide (a.toInt < 0) := by
  rw [BitVec.slt_eq_decide]
  rfl

/-- The signs differ just when the product of the magnitudes is to be
negated. -/
theorem product_of_magnitudes (x y : Int) :
    (if decide (x < 0) != decide (y < 0) then -(|x| * |y|) else |x| * |y|) = x * y := by
  rcases Int.lt_or_le x 0 with hx | hx <;> rcases Int.lt_or_le y 0 with hy | hy
  · simp [hx, hy, abs_of_neg]
  · simp [hx, Int.not_lt.mpr hy, abs_of_neg hx, abs_of_nonneg hy]
  · simp [hy, Int.not_lt.mpr hx, abs_of_neg hy, abs_of_nonneg hx]
  · simp [Int.not_lt.mpr hx, Int.not_lt.mpr hy, abs_of_nonneg hx, abs_of_nonneg hy]

theorem mult_unsigned (a b : BitVec 32) :
    (mult a b false).1 ++ (mult a b false).2 = BitVec.ofNat 64 (a.toNat * b.toNat) := by
  unfold mult
  split
  · rename_i h
    rcases h with rfl | rfl <;> simp
  · exact multLoop_product a b

theorem mult_signed (a b : BitVec 32) :
    (mult a b true).1 ++ (mult a b true).2 = BitVec.ofInt 64 (a.toInt * b.toInt) := by
  unfold mult
  split
  · rename_i h
    rcases h with rfl | rfl <;> simp
  · have hloop := multLoop_product (if a.slt 0 then -a else a) (if b.slt 0 then -b else b)
    rw [← BitVec.ofInt_natCast, Nat.cast_mul, toNat_magnitude, toNat_magnitude] at hloop
    simp only [Bool.true_and]
    rw [← product_of_magnitudes a.toInt b.toInt, ← slt_zero, ← slt_zero]
    split
    · rw [negateDouble_eq, hloop, BitVec.ofInt_neg]
    · exact hloop

theorem abs_toInt_le (a : BitVec 32) : |a.toInt| ≤ 2 ^ 31 := by
  have hle := a.le_two_mul_toInt
  have hlt := a.two_mul_toInt_lt
  exact abs_le.mpr ⟨by omega, by omega⟩

/-- `Mult` leaves the product of its operands in `hi` and `lo`: of the signed
integers they stand for, or of the unsigned ones. -/
theorem mult_exact (a b : BitVec 32) :
    ((mult a b true).1 ++ (mult a b true).2).toInt = a.toInt * b.toInt ∧
      ((mult a b false).1 ++ (mult a b false).2).toNat = a.toNat * b.toNat := by
  constructor
  · have habs : |a.toInt * b.toInt| ≤ 2 ^ 31 * 2 ^ 31 := by
      rw [abs_mul]
      exact Int.mul_le_mul (abs_toInt_le a) (abs_toInt_le b) (abs_nonneg _) (by omega)
    have hbounds := abs_le.mp habs
    rw [mult_signed, BitVec.toInt_ofInt]
    apply Int.bmod_eq_of_le <;> omega
  · have hlt : a.toNat * b.toNat < 2 ^ 32 * 2 ^ 32 :=
      Nat.mul_lt_mul_of_lt_of_lt a.isLt b.isLt
    rw [mult_unsigned, BitVec.toNat_ofNat, Nat.mod_eq_of_lt (by omega)]

end Nachos

import Mathlib.Tactic.Ring
import Mathlib.Data.Nat.Basic

/-! Double words kept in two halves: addition with the carry found by a
comparison, doubling with the top bit of the low half moved over, and
negation. -/

namespace Nachos.Lib

variable {w : Nat}

theorem toNat_halves (hi lo : BitVec w) : (hi ++ lo).toNat = hi.toNat * 2 ^ w + lo.toNat := by
  rw [BitVec.toNat_append, ← Nat.shiftLeft_add_eq_or_of_lt lo.isLt, Nat.shiftLeft_eq]

/-- The low half overflowed just when the sum is below one of its summands. -/
theorem halves_add (hi lo hi' lo' : BitVec w) :
    ((if lo + lo' < lo' then hi + 1 else hi) + hi') ++ (lo + lo') = (hi ++ lo) + (hi' ++ lo') := by
  apply BitVec.eq_of_toNat_eq
  have hlo := lo.isLt
  have hlo' := lo'.isLt
  have hpos : 0 < 2 ^ w := Nat.two_pow_pos w
  have hsum : hi.toNat * 2 ^ w + lo.toNat + (hi'.toNat * 2 ^ w + lo'.toNat) =
      (lo.toNat + lo'.toNat) + 2 ^ w * (hi.toNat + hi'.toNat) := by ring
  rw [BitVec.toNat_add, toNat_halves, toNat_halves, toNat_halves, Nat.pow_add, Nat.mod_mul, hsum,
    Nat.add_mul_mod_self_left, Nat.add_mul_div_left _ _ hpos]
  have hlow : (lo + lo').toNat = (lo.toNat + lo'.toNat) % 2 ^ w := BitVec.toNat_add lo lo'
  by_cases hc : lo.toNat + lo'.toNat < 2 ^ w
  · rw [Nat.mod_eq_of_lt hc] at hlow ⊢
    rw [if_neg (by rw [BitVec.lt_def]; omega), hlow, Nat.div_eq_of_lt hc, BitVec.toNat_add]
    ring_nf
  · have hdiv : (lo.toNat + lo'.toNat) / 2 ^ w = 1 := by
      apply Nat.div_eq_of_lt_le <;> omega
    have hmod : (lo.toNat + lo'.toNat) % 2 ^ w = lo.toNat + lo'.toNat - 2 ^ w := by
      rw [Nat.mod_eq_sub_mod (by omega), Nat.mod_eq_of_lt (by omega)]
    have hone : (1 : BitVec w).toNat = 1 % 2 ^ w := BitVec.toNat_ofNat 1 w
    rw [if_pos (by rw [BitVec.lt_def]; omega), hlow, hdiv, BitVec.toNat_add, BitVec.toNat_add,
      hone, Nat.add_mod_mod, Nat.mod_add_mod]
    ring_nf

theorem halves_double (hi lo : BitVec w) :
    hi.shiftConcat lo.msb ++ lo <<< 1 = (hi ++ lo) + (hi ++ lo) := by
  have hdouble : (hi ++ lo) + (hi ++ lo) = (hi ++ lo) <<< 1 := by
    apply BitVec.eq_of_toNat_eq
    rw [BitVec.toNat_add, BitVec.toNat_shiftLeft, Nat.shiftLeft_eq]
    ring_nf
  rw [hdouble]
  apply BitVec.eq_of_getLsbD_eq
  intro i hi
  simp only [BitVec.getLsbD_append, BitVec.getLsbD_shiftLeft, BitVec.getLsbD_shiftConcat,
    BitVec.msb_eq_getLsbD_last]
  grind

/-- Negation as complement and increment, half by half. -/
theorem halves_neg (hw : 0 < w) (hi lo : BitVec w) :
    (if ~~~lo + 1 = 0 then ~~~hi + 1 else ~~~hi) ++ (~~~lo + 1) = -(hi ++ lo) := by
  have hlt : 1 < 2 ^ w := Nat.one_lt_two_pow (by omega)
  have hone : (1 : BitVec w).toNat = 1 := by
    rw [show (1 : BitVec w) = BitVec.ofNat w 1 from rfl, BitVec.toNat_ofNat, Nat.mod_eq_of_lt hlt]
  have happend : (0 : BitVec w) ++ (1 : BitVec w) = 1#(w + w) := by
    apply BitVec.eq_of_toNat_eq
    have hlt' : 1 < 2 ^ (w + w) := Nat.one_lt_two_pow (by omega)
    rw [toNat_halves, hone, BitVec.toNat_ofNat, Nat.mod_eq_of_lt hlt']
    simp
  have hcarry : ~~~lo + 1 < 1 ↔ ~~~lo + 1 = 0 := by
    rw [BitVec.lt_def, hone, ← BitVec.toNat_inj, Nat.lt_one_iff]
    simp
  have h := halves_add (~~~hi) (~~~lo) 0 1
  rw [happend, ← BitVec.not_append, ← BitVec.neg_eq_not_add,
    show ∀ x : BitVec w, x + 0 = x from BitVec.add_zero] at h
  simpa only [hcarry] using h

end Nachos.Lib

import Mathlib.Data.BitVec

/-! Bit tests and bit fields: a field masked out of a word, as a number and
sign-extended. -/

namespace Nachos.Lib

variable {w : Nat}

theorem and_twoPow_ne_zero (x : BitVec w) (i : Nat) :
    x &&& BitVec.twoPow w i ≠ 0 ↔ x.getLsbD i = true := by
  rw [BitVec.and_twoPow]
  split
  · rename_i h
    refine ⟨fun _ => h, fun _ h0 => ?_⟩
    have hi : i < w := BitVec.lt_of_getLsbD h
    have htest : (BitVec.twoPow w i).getLsbD i = true := by simp [hi]
    rw [h0] at htest
    simp at htest
  · rename_i h
    exact ⟨fun h0 => (h0 rfl).elim, fun h' => (h h').elim⟩

/-- The word with its `n` low bits set. -/
def lowMask (w n : Nat) : BitVec w := (BitVec.allOnes n).setWidth w

theorem getLsbD_lowMask (n i : Nat) :
    (lowMask w n).getLsbD i = (decide (i < w) && decide (i < n)) := by
  simp [lowMask]

theorem and_lowMask (x : BitVec w) (n : Nat) :
    x &&& lowMask w n = (x.extractLsb' 0 n).setWidth w := by
  apply BitVec.eq_of_getLsbD_eq
  intro i hi
  rw [BitVec.getLsbD_and, getLsbD_lowMask, BitVec.getLsbD_setWidth, BitVec.getLsbD_extractLsb',
    Nat.zero_add, Bool.and_left_comm, Bool.and_comm (x.getLsbD i)]

/-- A field masked out of the word. -/
theorem toNat_field {n : Nat} (hn : n ≤ w) (x : BitVec w) (s : Nat) :
    (x >>> s &&& lowMask w n).toNat = (x.extractLsb' s n).toNat := by
  have hlt : (x.extractLsb' s n).toNat < 2 ^ w :=
    Nat.lt_of_lt_of_le (x.extractLsb' s n).isLt (Nat.pow_le_pow_right (by decide) hn)
  have hshift : (x >>> s).extractLsb' 0 n = x.extractLsb' s n := by
    apply BitVec.eq_of_getLsbD_eq
    intro i hi
    simp
  rw [and_lowMask, BitVec.toNat_setWidth, hshift, Nat.mod_eq_of_lt hlt]

/-- Adjacent fields put together. -/
theorem fields_append (x : BitVec w) (s m n : Nat) :
    (x >>> (s + n)).setWidth m ++ (x >>> s).setWidth n = (x >>> s).setWidth (m + n) := by
  apply BitVec.eq_of_getLsbD_eq
  intro i hi
  rw [BitVec.getLsbD_append, BitVec.getLsbD_setWidth, BitVec.getLsbD_setWidth,
    BitVec.getLsbD_setWidth, BitVec.getLsbD_ushiftRight, BitVec.getLsbD_ushiftRight]
  by_cases hin : i < n
  · simp [hi, hin]
  · simp [hi, hin, show i - n < m by omega, show s + n + (i - n) = s + i by omega]

/-- A field masked out, with ones put above it if its top bit is set. -/
theorem extend_field {n : Nat} (h0 : 0 < n) (hn : n ≤ w) (x : BitVec w) :
    (if x &&& lowMask w n &&& BitVec.twoPow w (n - 1) ≠ 0 then
      x &&& lowMask w n ||| ~~~lowMask w n else x &&& lowMask w n) =
      (x.extractLsb' 0 n).signExtend w := by
  have hmsb : (x.extractLsb' 0 n).msb = x.getLsbD (n - 1) := by
    rw [BitVec.msb_eq_getLsbD_last, BitVec.getLsbD_extractLsb', Nat.zero_add]
    simp only [show n - 1 < n by omega, decide_true, Bool.true_and]
  have htest :
      (x &&& lowMask w n &&& BitVec.twoPow w (n - 1) ≠ 0) = (x.getLsbD (n - 1) = true) := by
    rw [and_twoPow_ne_zero, BitVec.getLsbD_and, getLsbD_lowMask]
    simp only [show n - 1 < w by omega, show n - 1 < n by omega, decide_true, Bool.and_true]
  simp only [htest]
  apply BitVec.eq_of_getLsbD_eq
  intro i hi
  rw [BitVec.getLsbD_signExtend, hmsb]
  have hmask : (lowMask w n)[i] = decide (i < n) := by
    rw [← BitVec.getLsbD_eq_getElem, getLsbD_lowMask]
    simp [hi]
  by_cases hin : i < n
  · split <;> simp [hmask, hi, hin]
  · split <;> simp [*]

end Nachos.Lib

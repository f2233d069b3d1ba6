import Mathlib.Algebra.Order.Group.Unbundled.Int
import Mathlib.Data.Int.ModEq

/-! The first integer at or behind a given one with a given remainder: where a
periodic process next comes to one of its positions. -/

namespace Nachos.Lib

/-- The first one of `start`, `start + 1`, … that is `target` modulo `period`. -/
def firstFrom (period target start : Int) : Int := start + (target - start) % period

variable {period target start k : Int}

theorem le_firstFrom (h : 0 < period) : start ≤ firstFrom period target start := by
  have hnonneg := Int.emod_nonneg (target - start) (ne_of_gt h)
  unfold firstFrom
  omega

theorem firstFrom_lt (h : 0 < period) : firstFrom period target start < start + period := by
  have hlt := Int.emod_lt_of_pos (target - start) h
  unfold firstFrom
  omega

theorem firstFrom_emod : firstFrom period target start % period = target % period := by
  unfold firstFrom
  rw [Int.add_emod_emod, add_sub_cancel]

theorem firstFrom_le (h : 0 < period) (hk : start ≤ k) (hmod : k % period = target % period) :
    firstFrom period target start ≤ k := by
  have hsame : (target - start) % period = (k - start) % period :=
    (Int.ModEq.sub_right start (show k ≡ target [ZMOD period] from hmod)).symm
  have hquot : 0 ≤ period * ((k - start) / period) :=
    Int.mul_nonneg h.le (Int.ediv_nonneg (by omega) h.le)
  have hdiv := Int.mul_ediv_add_emod (k - start) period
  unfold firstFrom
  omega

end Nachos.Lib

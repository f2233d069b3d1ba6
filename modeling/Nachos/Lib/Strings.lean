import Mathlib.Data.List.Basic

/-! Strings of C: the bytes of a list, or of an array, before the first NUL. -/

namespace Nachos.Lib

/-! ## In a list -/

/-- The bytes before the first NUL, or all. -/
def beforeNul (bs : List UInt8) : List UInt8 := bs.takeWhile (· != 0)

def strlen (bs : List UInt8) : Nat := (beforeNul bs).length

variable {bs : List UInt8} {b : UInt8}

theorem beforeNul_ne_zero (h : b ∈ beforeNul bs) : b ≠ 0 := by
  simpa using List.all_eq_true.mp List.all_takeWhile b h

theorem take_strlen (bs : List UInt8) : bs.take (strlen bs) = beforeNul bs :=
  (List.prefix_iff_eq_take.mp (List.takeWhile_prefix _)).symm

theorem strlen_le (bs : List UInt8) : strlen bs ≤ bs.length :=
  (List.takeWhile_prefix _).length_le

/-- A string in an array is ended by a NUL: its own, or the one behind it. -/
theorem append_nul (bs : List UInt8) : ∃ cs, bs ++ [0] = beforeNul bs ++ 0 :: cs := by
  induction bs with
  | nil => exact ⟨[], rfl⟩
  | cons b bs ih =>
    unfold beforeNul
    by_cases hb : b = 0
    · rw [hb, List.takeWhile_cons_of_neg (by decide)]
      exact ⟨bs ++ [0], rfl⟩
    · rw [List.takeWhile_cons_of_pos (by simpa using hb)]
      obtain ⟨cs, hcs⟩ := ih
      exact ⟨cs, congrArg (b :: ·) hcs⟩

/-- `p` filled up with NULs. -/
def padded (p : List UInt8) (len : Nat) : List UInt8 := p ++ List.replicate (len - p.length) 0

theorem length_padded {p : List UInt8} {len : Nat} (h : p.length ≤ len) :
    (padded p len).length = len := by
  unfold padded
  rw [List.length_append, List.length_replicate]
  omega

theorem beforeNul_padded {p : List UInt8} (h : ∀ b ∈ p, b ≠ 0) (len : Nat) :
    beforeNul (padded p len) = p := by
  unfold beforeNul padded
  rw [List.takeWhile_append_of_pos fun b hb => by simpa using h b hb]
  cases len - p.length with
  | zero => exact List.append_nil p
  | succ n => exact List.append_nil p

theorem forall_string_iff {P : List UInt8 → Prop} {len m : Nat} (hm : m ≤ len) :
    (∀ bs : List UInt8, bs.length = len → strlen bs = m → P (beforeNul bs)) ↔
      ∀ p : List UInt8, p.length = m → (∀ b ∈ p, b ≠ 0) → P p := by
  constructor
  · intro h p hlen hne
    have hp := h (padded p len) (length_padded (hlen ▸ hm))
    rw [strlen, beforeNul_padded hne] at hp
    exact hp hlen
  · intro h bs _ hstr
    exact h _ hstr fun b hb => beforeNul_ne_zero hb

/-! ## In an array -/

/-- The length of the string in an array of `length` bytes, if there is a NUL. -/
def findNul (length : Nat) (buffer : Nat → UInt8) : Option Nat :=
  (List.range length).find? fun i => buffer i = 0

variable {length z i : Nat} {buffer : Nat → UInt8}

theorem findNul_eq_some : findNul length buffer = some z ↔
    z < length ∧ buffer z = 0 ∧ ∀ i < z, buffer i ≠ 0 := by
  unfold findNul
  rw [List.find?_range_eq_some]
  simp only [decide_eq_true_eq, List.mem_range, Bool.not_eq_true', decide_eq_false_iff_not]
  constructor
  · intro ⟨h0, hlt, hne⟩
    exact ⟨hlt, h0, hne⟩
  · intro ⟨hlt, h0, hne⟩
    exact ⟨h0, hlt, hne⟩

theorem findNul_eq_none : findNul length buffer = none ↔ ∀ i < length, buffer i ≠ 0 := by
  unfold findNul
  simp [List.find?_eq_none]

theorem buffer_getElem? :
    ((List.range z).map buffer)[i]? = some b ↔ i < z ∧ buffer i = b := by
  by_cases hi : i < z
  · simp [hi]
  · simp [hi]

theorem buffer_not_nul (h : ∀ i < z, buffer i ≠ 0) :
    0 ∉ (List.range z).map buffer := by
  intro hmem
  obtain ⟨i, hi, hb⟩ := List.mem_map.mp hmem
  exact h i (List.mem_range.mp hi) hb

end Nachos.Lib

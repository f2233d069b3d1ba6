import Mathlib.Data.List.Basic
import Mathlib.Logic.Function.Basic

/-! Lists that items enter at the end, each with the date of its entry. An item
may have entered more than once and old entries may be left in the list; its
date is that of its last entry. Entering keeps the last entries in the order of
the dates, and so does removing the front. -/

namespace Nachos.Lib

variable {α : Type}

/-- The last entry of `b` stands behind the last entry of `a`. -/
def Behind (l : List α) (a b : α) : Prop := ∃ xs ys, l = xs ++ a :: ys ∧ a ∉ ys ∧ b ∈ ys

/-- The last entries stand in the order of the dates. -/
inductive LastOrdered (date : α → Nat) : List α → Prop
  | nil : LastOrdered date []
  | again {a l} (entered : a ∈ l) (rest : LastOrdered date l) : LastOrdered date (a :: l)
  | last {a l} (older : ∀ b ∈ l, date a < date b) (rest : LastOrdered date l) :
    LastOrdered date (a :: l)

variable {date : α → Nat} {l : List α} {a b : α}

theorem Behind.cons (h : Behind l a b) (x : α) : Behind (x :: l) a b := by
  obtain ⟨xs, ys, hl, ha, hb⟩ := h
  exact ⟨x :: xs, ys, by rw [hl]; rfl, ha, hb⟩

/-- Of two items in the list, one entered last. -/
theorem behind_total (ha : a ∈ l) (hb : b ∈ l) (hne : b ≠ a) : Behind l a b ∨ Behind l b a := by
  induction l with
  | nil => cases ha
  | cons x l ih =>
    by_cases hal : a ∈ l
    · by_cases hbl : b ∈ l
      · exact (ih hal hbl).imp (fun h => h.cons x) fun h => h.cons x
      · obtain rfl : b = x := (List.mem_cons.mp hb).resolve_right hbl
        exact .inr ⟨[], l, rfl, hbl, hal⟩
    · obtain rfl : a = x := (List.mem_cons.mp ha).resolve_right hal
      exact .inl ⟨[], l, rfl, hal, (List.mem_cons.mp hb).resolve_left hne⟩

theorem LastOrdered.tail (h : LastOrdered date l) : LastOrdered date l.tail := by
  cases h with
  | nil => exact .nil
  | again _ rest => exact rest
  | last _ rest => exact rest

/-- The list may have been entered before by the item that enters now. -/
theorem LastOrdered.enter [DecidableEq α] {now : Nat} (h : LastOrdered date l)
    (past : ∀ b ∈ l, date b < now) (a : α) :
    LastOrdered (Function.update date a now) (l ++ [a]) := by
  induction h with
  | nil => exact .last nofun .nil
  | again entered _ ih =>
    have hrest := ih fun b hb => past b (List.mem_cons_of_mem _ hb)
    exact .again (List.mem_append_left _ entered) hrest
  | @last x l older _ ih =>
    have hrest := ih fun b hb => past b (List.mem_cons_of_mem _ hb)
    by_cases hx : x = a
    · subst hx
      exact .again (List.mem_append_right _ List.mem_cons_self) hrest
    · refine .last (fun b hb => ?_) hrest
      rw [Function.update_of_ne hx, Function.update_apply]
      split
      · exact past x List.mem_cons_self
      · rename_i hba
        have hbl : b ∈ l := (List.mem_append.mp hb).resolve_right (by simpa using hba)
        exact older b hbl

theorem LastOrdered.lt_of_behind (h : LastOrdered date l) (hb : Behind l a b) :
    date a < date b := by
  obtain ⟨xs, ys, hl, ha, hb⟩ := hb
  induction xs generalizing l with
  | nil =>
    subst hl
    cases h with
    | again entered _ => exact absurd entered ha
    | last older _ => exact older b hb
  | cons x xs ih =>
    subst hl
    exact ih h.tail rfl

/-- Dates can be read off the list. -/
theorem LastOrdered.behind_iff (h : LastOrdered date l) (ha : a ∈ l) (hb : b ∈ l) (hne : b ≠ a) :
    Behind l a b ↔ date a < date b := by
  constructor
  · exact h.lt_of_behind
  · intro hlt
    rcases behind_total ha hb hne with hab | hba
    · exact hab
    · exact absurd (h.lt_of_behind hba) (by omega)

end Nachos.Lib

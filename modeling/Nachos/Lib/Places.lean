import Mathlib.Data.List.Basic
import Mathlib.Data.List.Count
import Mathlib.Logic.Function.Basic

/-! Things that are in one place at a time. `place` says where each thing is;
some of the places keep a list, which has to name the things at that place, each
once. That a thing is on two lists, or twice on one, is then impossible by
construction; what is left to show of an operation is that it changes the lists
as it changes the places. -/

namespace Nachos.Lib

variable {α π : Type} [DecidableEq α] [DecidableEq π]

/-- `l` names the things at `p`, each once. -/
def Lists (place : α → π) (p : π) (l : List α) : Prop :=
  ∀ a, l.count a = if place a = p then 1 else 0

variable {place : α → π} {p q : π} {l : List α} {a : α}

theorem lists_nil (h : ∀ a, place a ≠ p) : Lists place p [] :=
  fun a => by rw [if_neg (h a), List.count_nil]

theorem Lists.mem_iff (h : Lists place p l) : a ∈ l ↔ place a = p := by
  rw [← List.count_pos_iff, h a]
  split <;> simp [*]

theorem Lists.count_of_mem (h : Lists place p l) (ha : a ∈ l) : l.count a = 1 := by
  rw [h a, if_pos (h.mem_iff.mp ha)]

theorem Lists.notMem (h : Lists place p l) (ha : place a = q) (hq : q ≠ p) : a ∉ l :=
  fun hm => hq (ha.symm.trans (h.mem_iff.mp hm))

/-- The lists of the other places do not notice a move. -/
theorem Lists.move (h : Lists place p l) (ha : place a ≠ p) (hq : q ≠ p) :
    Lists (Function.update place a q) p l := by
  intro b
  rw [h b, Function.update_apply]
  by_cases hb : b = a
  · rw [if_pos hb, hb, if_neg ha, if_neg hq]
  · rw [if_neg hb]

theorem Lists.append (h : Lists place p l) (ha : place a ≠ p) :
    Lists (Function.update place a p) p (l ++ [a]) := by
  intro b
  rw [List.count_append, h b, Function.update_apply, List.count_singleton]
  by_cases hb : b = a
  · subst hb
    simp [ha]
  · simp [hb, Ne.symm hb]

theorem Lists.prepend (h : Lists place p l) (ha : place a ≠ p) :
    Lists (Function.update place a p) p (a :: l) := by
  intro b
  rw [List.count_cons, h b, Function.update_apply]
  by_cases hb : b = a
  · subst hb
    simp [ha]
  · simp [hb, Ne.symm hb]

theorem Lists.remove (h : Lists place p (a :: l)) (hq : q ≠ p) :
    Lists (Function.update place a q) p l := by
  intro b
  have hc := h b
  rw [List.count_cons] at hc
  rw [Function.update_apply]
  by_cases hb : b = a
  · subst hb
    simp only [BEq.rfl, if_true] at hc
    rw [if_pos rfl, if_neg hq]
    split at hc <;> omega
  · rw [if_neg hb, ← hc]
    simp [Ne.symm hb]

end Nachos.Lib

import Mathlib.Data.List.FinRange
import Mathlib.Logic.Function.Basic

/-! A table of `n` places for entries with a key, as a directory or a process table
is one: a new entry goes to the first free place, and no key is there twice. -/

namespace Nachos.Lib

structure Slots (n : Nat) (κ α : Type) where
  slot : Fin n → Option (κ × α)
  distinct : ∀ {i j x y}, slot i = some x → slot j = some y → x.1 = y.1 → i = j

namespace Slots

variable {n : Nat} {κ α : Type} {s : Slots n κ α} {i : Fin n} {x : κ × α} {k : κ} {a : α}

def empty : Slots n κ α where
  slot := fun _ => none
  distinct := by simp

/-- The entries, in the order of their places. -/
def toList (s : Slots n κ α) : List (κ × α) := (List.finRange n).filterMap s.slot

/-- The first free place. -/
def free (s : Slots n κ α) : Option (Fin n) := (List.finRange n).find? fun i => (s.slot i).isNone

theorem mem_toList : x ∈ s.toList ↔ ∃ i, s.slot i = some x := by
  simp [toList]

/-- There is a free place exactly if there are fewer entries than places. -/
theorem free_isSome_iff : s.free.isSome ↔ s.toList.length < n := by
  let gaps := (List.finRange n).filter fun i => (s.slot i).isNone
  have hlen : s.toList.length + gaps.length = n := by
    have hsplit := List.length_eq_length_filter_add (l := List.finRange n)
      fun i => (s.slot i).isSome
    have hnone : (fun i => !(s.slot i).isSome) = fun i => (s.slot i).isNone := by
      funext i
      simp
    rw [List.length_finRange, hnone] at hsplit
    rw [toList, List.length_filterMap_eq_countP, List.countP_eq_length_filter]
    exact hsplit.symm
  have hgaps : s.free.isSome ↔ 0 < gaps.length := by
    rw [free, List.find?_isSome, List.length_pos_iff_exists_mem]
    exact exists_congr fun i => (List.mem_filter (p := fun i => (s.slot i).isNone)).symm
  rw [hgaps]
  omega

variable [DecidableEq κ]

/-- What is under the key. -/
def get (s : Slots n κ α) (k : κ) : Option α :=
  (s.toList.find? fun x => x.1 = k).map Prod.snd

theorem get_eq_some : s.get k = some a ↔ ∃ i, s.slot i = some (k, a) := by
  rw [get, Option.map_eq_some_iff]
  constructor
  · intro ⟨x, hx, ha⟩
    obtain ⟨i, hi⟩ := mem_toList.mp (List.mem_of_find?_eq_some hx)
    have hk : x.1 = k := by simpa using List.find?_some hx
    exact ⟨i, by rw [hi, ← hk, ← ha]⟩
  · intro ⟨i, hi⟩
    cases hf : s.toList.find? fun x => x.1 = k with
    | none =>
      have hnot := List.find?_eq_none.mp hf (k, a) (mem_toList.mpr ⟨i, hi⟩)
      simp at hnot
    | some x =>
      obtain ⟨j, hj⟩ := mem_toList.mp (List.mem_of_find?_eq_some hf)
      have hk : x.1 = k := by simpa using List.find?_some hf
      obtain rfl := s.distinct hj hi hk
      exact ⟨x, rfl, congrArg Prod.snd (Option.some.inj (hj.symm.trans hi))⟩

theorem get_eq_none : s.get k = none ↔ ∀ i a, s.slot i ≠ some (k, a) := by
  rw [Option.eq_none_iff_forall_ne_some]
  constructor
  · exact fun h i a hi => h a (get_eq_some.mpr ⟨i, hi⟩)
  · intro h a ha
    obtain ⟨i, hi⟩ := get_eq_some.mp ha
    exact h i a hi

/-- A new entry, if the key is not there and a place is free. -/
def insert (s : Slots n κ α) (k : κ) (a : α) : Option (Slots n κ α) :=
  if hk : s.get k = none then
    s.free.map fun i =>
      { slot := Function.update s.slot i (some (k, a))
        distinct := by
          intro j j' x y hx hy hxy
          simp only [Function.update_apply] at hx hy
          split at hx <;> split at hy
          · rename_i hj hj'
            exact hj.trans hj'.symm
          · cases hx
            obtain rfl : k = y.1 := hxy
            exact absurd hy (get_eq_none.mp hk j' y.2)
          · cases hy
            obtain rfl : x.1 = k := hxy
            exact absurd hx (get_eq_none.mp hk j x.2)
          · exact s.distinct hx hy hxy }
  else none

/-- The table without the key. -/
def erase (s : Slots n κ α) (k : κ) : Slots n κ α where
  slot := fun i => (s.slot i).filter fun x => x.1 ≠ k
  distinct := by
    intro i j x y hx hy
    exact s.distinct (Option.filter_eq_some_iff.mp hx).1 (Option.filter_eq_some_iff.mp hy).1

theorem insert_eq_some {s' : Slots n κ α} : s.insert k a = some s' ↔
    s.get k = none ∧ ∃ i, s.free = some i ∧ s'.slot = Function.update s.slot i (some (k, a)) := by
  unfold insert
  split
  · rename_i hk
    rw [Option.map_eq_some_iff]
    constructor
    · intro ⟨i, hi, hs'⟩
      exact ⟨hk, i, hi, by rw [← hs']⟩
    · intro ⟨_, i, hi, hs'⟩
      refine ⟨i, hi, ?_⟩
      cases s'
      cases hs'
      rfl
  · rename_i hk
    exact iff_of_false (by simp) fun h => hk h.1

end Slots
end Nachos.Lib

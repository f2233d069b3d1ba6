import Mathlib.Data.List.Sort

/-! Lists of items with keys, kept in the order of the keys: a new item goes
behind those with the same key. -/

namespace Nachos.Lib

variable {α : Type}

/-- In front of the first element with a larger key, or at the end. -/
def sortedInsert (item : α) (key : Int) (l : List (Int × α)) : List (Int × α) :=
  l.orderedInsert (fun a b => a.1 < b.1) (key, item)

def KeySorted (l : List (Int × α)) : Prop := l.Pairwise fun a b => a.1 ≤ b.1

theorem sortedInsert_perm (item : α) (key : Int) (l : List (Int × α)) :
    (sortedInsert item key l).Perm ((key, item) :: l) :=
  List.perm_orderedInsert _ _ l

theorem mem_sortedInsert {item : α} {key : Int} {l : List (Int × α)} {x : Int × α} :
    x ∈ sortedInsert item key l ↔ x = (key, item) ∨ x ∈ l := by
  rw [(sortedInsert_perm item key l).mem_iff, List.mem_cons]

theorem KeySorted.insert {l : List (Int × α)} (h : KeySorted l) (item : α) (key : Int) :
    KeySorted (sortedInsert item key l) := by
  induction l with
  | nil => exact List.pairwise_singleton _ _
  | cons x l ih =>
    obtain ⟨hx, hl⟩ := List.pairwise_cons.mp h
    rw [sortedInsert, List.orderedInsert_cons]
    split
    · rename_i hlt
      refine List.pairwise_cons.mpr ⟨fun y hy => ?_, h⟩
      rcases List.mem_cons.mp hy with rfl | hy
      · exact Int.le_of_lt hlt
      · exact Int.le_trans (Int.le_of_lt hlt) (hx y hy)
    · rename_i hlt
      refine List.pairwise_cons.mpr ⟨fun y hy => ?_, ih hl⟩
      rcases mem_sortedInsert.mp hy with rfl | hy
      · exact Int.not_lt.mp hlt
      · exact hx y hy

/-- Where the item goes. -/
theorem sortedInsert_append {item : α} {key : Int} {l r : List (Int × α)}
    (hle : ∀ x ∈ l, x.1 ≤ key) (hlt : ∀ y ∈ r.head?, key < y.1) :
    sortedInsert item key (l ++ r) = l ++ (key, item) :: r := by
  induction l with
  | nil =>
    cases r with
    | nil => rfl
    | cons y r =>
      rw [List.nil_append, sortedInsert, List.orderedInsert_cons, if_pos (hlt y rfl)]
      rfl
  | cons x l ih =>
    have hx : ¬ key < x.1 := Int.not_lt.mpr (hle x List.mem_cons_self)
    rw [sortedInsert, List.cons_append, List.orderedInsert_cons, if_neg hx]
    exact congrArg (x :: ·) (ih fun y hy => hle y (List.mem_cons_of_mem _ hy))

/-- Among the items of any one key the new one is the last. -/
theorem KeySorted.filter_insert {l : List (Int × α)} (h : KeySorted l) (item : α) (key k : Int) :
    (sortedInsert item key l).filter (fun x => x.1 = k) =
      (l ++ [(key, item)]).filter fun x => x.1 = k := by
  induction l with
  | nil => rfl
  | cons x l ih =>
    obtain ⟨hx, hl⟩ := List.pairwise_cons.mp h
    rw [sortedInsert, List.orderedInsert_cons]
    split
    · rename_i hlt
      rw [List.filter_cons, List.filter_append, List.filter_singleton]
      by_cases hk : key = k
      · -- the items on the list have larger keys
        have hnone : (x :: l).filter (fun x => x.1 = k) = [] := by
          refine List.filter_eq_nil_iff.mpr fun y hy => ?_
          have hle : x.1 ≤ y.1 := by
            rcases List.mem_cons.mp hy with rfl | hy
            · exact Int.le_refl _
            · exact hx y hy
          have hlt' : key < x.1 := hlt
          simp only [decide_eq_true_eq]
          omega
        rw [hnone, List.nil_append, cond_eq_ite]
      · simp only [hk, decide_false, Bool.false_eq_true, if_false, cond_false, List.append_nil]
    · rw [List.cons_append, List.filter_cons, List.filter_cons]
      exact congrArg (fun r => if decide (x.1 = k) = true then x :: r else r) (ih hl)

/-- The first element has the least key. -/
theorem KeySorted.head_le {x y : Int × α} {l : List (Int × α)} (h : KeySorted (x :: l))
    (hy : y ∈ l) : x.1 ≤ y.1 :=
  (List.pairwise_cons.mp h).1 y hy

theorem KeySorted.tail {x : Int × α} {l : List (Int × α)} (h : KeySorted (x :: l)) :
    KeySorted l :=
  (List.pairwise_cons.mp h).2

end Nachos.Lib

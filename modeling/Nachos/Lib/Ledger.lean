import Mathlib.Data.List.Perm.Basic
import Mathlib.Data.List.Nodup

/-! A free map checked against what is in use. The map marks numbers below `n`;
the owners list the numbers they hold. The two agree when the marked numbers
are exactly those listed, each by one owner and once: nothing is leaked and
nothing is shared. -/

namespace Nachos.Lib

structure Ledger (n : Nat) (marked : Nat → Bool) (owned : List Int) : Prop where
  nodup : owned.Nodup
  bound : ∀ s ∈ owned, 0 ≤ s ∧ s < n
  marked_iff : ∀ i, i < n → (marked i = true ↔ (i : Int) ∈ owned)

namespace Ledger
variable {n : Nat} {marked marked' : Nat → Bool} {owned owned' new gone : List Int}

theorem perm (h : Ledger n marked owned) (hp : owned.Perm owned') : Ledger n marked owned' where
  nodup := hp.nodup_iff.mp h.nodup
  bound := fun s hs => h.bound s (hp.mem_iff.mpr hs)
  marked_iff := fun i hi => (h.marked_iff i hi).trans hp.mem_iff

theorem marked_congr (h : Ledger n marked owned) (hm : ∀ i, i < n → marked' i = marked i) :
    Ledger n marked' owned where
  nodup := h.nodup
  bound := h.bound
  marked_iff := fun i hi => by rw [hm i hi]; exact h.marked_iff i hi

theorem unmarked_iff (h : Ledger n marked owned) {i : Nat} (hi : i < n) :
    marked i = false ↔ (i : Int) ∉ owned := by
  rw [← h.marked_iff i hi, Bool.not_eq_true]

/-- Numbers that were clear are marked and given to a new owner. -/
theorem grow (h : Ledger n marked owned) (hnew : new.Nodup)
    (hclear : ∀ s ∈ new, ∃ i : Nat, s = i ∧ i < n ∧ marked i = false)
    (hm : ∀ i, i < n → (marked' i = true ↔ marked i = true ∨ (i : Int) ∈ new)) :
    Ledger n marked' (new ++ owned) where
  nodup := by
    refine List.Nodup.append hnew h.nodup ?_
    intro s hs hs'
    obtain ⟨i, rfl, hi, hclear⟩ := hclear s hs
    exact (h.unmarked_iff hi).mp hclear hs'
  bound := by
    intro s hs
    rcases List.mem_append.mp hs with hs | hs
    · obtain ⟨i, rfl, hi, -⟩ := hclear s hs
      omega
    · exact h.bound s hs
  marked_iff := fun i hi => by
    rw [hm i hi, h.marked_iff i hi, List.mem_append]
    exact or_comm

/-- An owner gives back what it holds. -/
theorem shrink (h : Ledger n marked (gone ++ owned))
    (hm : ∀ i, i < n → (marked' i = true ↔ marked i = true ∧ (i : Int) ∉ gone)) :
    Ledger n marked' owned where
  nodup := h.nodup.of_append_right
  bound := fun s hs => h.bound s (List.mem_append_right _ hs)
  marked_iff := fun i hi => by
    rw [hm i hi, h.marked_iff i hi, List.mem_append]
    constructor
    · intro hin
      exact hin.1.resolve_left hin.2
    · intro hin
      exact ⟨Or.inr hin, fun hgone => List.disjoint_of_nodup_append h.nodup hgone hin⟩

/-- What is not owned is clear. -/
theorem length_clear (h : Ledger n marked owned) :
    ((List.range n).filter fun i => !marked i).length + owned.length = n := by
  have hperm : (owned.map Int.toNat).Perm ((List.range n).filter marked) := by
    refine (List.perm_ext_iff_of_nodup (h.nodup.map_on ?_) (List.nodup_range.filter _)).mpr
      fun i => ?_
    · intro s hs t ht hst
      have hs0 := (h.bound s hs).1
      have ht0 := (h.bound t ht).1
      omega
    · rw [List.mem_map, List.mem_filter, List.mem_range]
      constructor
      · intro ⟨s, hs, hi⟩
        have hb := h.bound s hs
        have hlt : i < n := by omega
        refine ⟨hlt, (h.marked_iff i hlt).mpr ?_⟩
        rw [← hi, Int.toNat_of_nonneg hb.1]
        exact hs
      · intro ⟨hlt, hm⟩
        exact ⟨i, (h.marked_iff i hlt).mp hm, Int.toNat_natCast i⟩
  have hsplit := List.length_eq_length_filter_add (l := List.range n) marked
  have hlen := hperm.length_eq
  rw [List.length_range] at hsplit
  rw [List.length_map] at hlen
  omega

end Ledger

/-- One number less passes the filter. -/
theorem filter_range_perm_cons {n i : Nat} (p p' : Nat → Bool) (hi : i < n) (hp : p i = true)
    (hp' : ∀ j, j < n → p' j = (p j && j != i)) :
    ((List.range n).filter p).Perm (i :: (List.range n).filter p') := by
  have hnot : i ∉ (List.range n).filter p' := by
    intro hmem
    have := hp' i hi
    simp_all
  refine (List.perm_ext_iff_of_nodup (List.nodup_range.filter _)
    (List.nodup_cons.mpr ⟨hnot, List.nodup_range.filter _⟩)).mpr fun j => ?_
  rw [List.mem_cons, List.mem_filter, List.mem_filter, List.mem_range]
  constructor
  · intro ⟨hj, hpj⟩
    by_cases hji : j = i
    · exact Or.inl hji
    · exact Or.inr ⟨hj, by simp [hp' j hj, hpj, hji]⟩
  · intro hj
    rcases hj with rfl | ⟨hj, hpj⟩
    · exact ⟨hi, hp⟩
    · rw [hp' j hj, Bool.and_eq_true] at hpj
      exact ⟨hj, hpj.1⟩

end Nachos.Lib

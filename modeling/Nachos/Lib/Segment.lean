import Mathlib.Data.List.Basic
import Mathlib.Data.List.Nodup

/-! Singly linked nodes in a heap. An address is a number and a pointer an address
or nothing, which is NULL; the heap has a node at each address that is allocated.
A segment is what one comes by on the way from one pointer to another, as the
addresses of the nodes with what each of them holds. How a node is laid out is left
open: `next` and `val` read the pointer and the contents out of it. -/

namespace Nachos.Lib

abbrev Heap (ν : Type) := Nat → Option ν

section Segment
variable {ν β : Type} (next : ν → Option Nat) (val : ν → β)

/-- Following `next` from `p` leads by the nodes `cells` to `q`. -/
def Segment (h : Heap ν) : Option Nat → List (Nat × β) → Option Nat → Prop
  | p, [], q => p = q
  | p, (a, b) :: cells, q => p = some a ∧ ∃ n, h a = some n ∧ val n = b ∧ Segment h (next n) cells q

/-- The addresses of the nodes. -/
abbrev addresses (cells : List (Nat × β)) : List Nat := cells.map Prod.fst

end Segment

namespace Segment
variable {ν β : Type} {next : ν → Option Nat} {val : ν → β} {h h' : Heap ν}
variable {p q : Option Nat} {a c : Nat} {b v : β} {n m : ν} {cells cells' : List (Nat × β)}

theorem append_iff : Segment next val h p (cells ++ cells') q ↔
    ∃ m, Segment next val h p cells m ∧ Segment next val h m cells' q := by
  induction cells generalizing p with
  | nil =>
    constructor
    · exact fun hs => ⟨p, rfl, hs⟩
    · rintro ⟨_, rfl, hs⟩
      exact hs
  | cons x cells ih =>
    obtain ⟨a, b⟩ := x
    constructor
    · intro ⟨hp, n, hn, hv, hs⟩
      obtain ⟨m, hm, hs'⟩ := ih.mp hs
      exact ⟨m, ⟨hp, n, hn, hv, hm⟩, hs'⟩
    · intro ⟨m, ⟨hp, n, hn, hv, hm⟩, hs'⟩
      exact ⟨hp, n, hn, hv, ih.mpr ⟨m, hm, hs'⟩⟩

/-- The nodes of a segment are allocated. -/
theorem allocated (hs : Segment next val h p cells q) (ha : a ∈ addresses cells) :
    ∃ n, h a = some n := by
  induction cells generalizing p with
  | nil => cases ha
  | cons x cells ih =>
    obtain ⟨-, n, hn, -, hrest⟩ := hs
    rcases List.mem_cons.mp ha with rfl | ha
    · exact ⟨n, hn⟩
    · exact ih hrest ha

theorem not_mem_of_free (hs : Segment next val h p cells q) (hfree : h a = none) :
    a ∉ addresses cells := by
  intro ha
  obtain ⟨n, hn⟩ := hs.allocated ha
  rw [hfree] at hn
  cases hn

/-- A segment only depends on its own nodes. -/
theorem congr (hs : Segment next val h p cells q) (heq : ∀ a ∈ addresses cells, h' a = h a) :
    Segment next val h' p cells q := by
  induction cells generalizing p with
  | nil => exact hs
  | cons x cells ih =>
    obtain ⟨hp, n, hn, hv, hrest⟩ := hs
    refine ⟨hp, n, ?_, hv, ih hrest fun a ha => heq a (List.mem_cons_of_mem _ ha)⟩
    rw [heq _ List.mem_cons_self, hn]

/-- The way to NULL is determined. -/
theorem unique (hs : Segment next val h p cells none) (hs' : Segment next val h p cells' none) :
    cells = cells' := by
  induction cells generalizing p cells' with
  | nil =>
    obtain rfl : p = none := hs
    cases cells' with
    | nil => rfl
    | cons x cells' => cases hs'.1
  | cons x cells ih =>
    obtain ⟨a, b⟩ := x
    obtain ⟨rfl, n, hn, rfl, hrest⟩ := hs
    cases cells' with
    | nil => cases hs'
    | cons x' cells' =>
      obtain ⟨a', b'⟩ := x'
      obtain ⟨ha, n', hn', rfl, hrest'⟩ := hs'
      obtain rfl : a = a' := Option.some.inj ha
      obtain rfl : n = n' := Option.some.inj (hn.symm.trans hn')
      rw [ih hrest hrest']

/-- It has no cycle: what is left at the second visit of a node would be what was
left at the first. -/
theorem nodup (hs : Segment next val h p cells none) : (addresses cells).Nodup := by
  induction cells generalizing p with
  | nil => exact List.nodup_nil
  | cons x cells ih =>
    obtain ⟨a, b⟩ := x
    obtain ⟨-, n, hn, hv, hrest⟩ := hs
    refine List.nodup_cons.mpr ⟨fun ha => ?_, ih hrest⟩
    obtain ⟨⟨a', b'⟩, hmem, hsame⟩ := List.mem_map.mp ha
    obtain rfl : a' = a := hsame
    obtain ⟨xs, ys, rfl⟩ := List.append_of_mem hmem
    obtain ⟨m, -, hback⟩ := append_iff.mp hrest
    obtain rfl : m = some a' := hback.1
    have hwhole : Segment next val h (some a') ((a', b) :: (xs ++ (a', b') :: ys)) none :=
      ⟨rfl, n, hn, hv, hrest⟩
    have hloop := hback.unique hwhole
    have hlen := congrArg List.length hloop
    simp only [List.length_cons, List.length_append] at hlen
    omega

/-! ### Insertion and removal -/

/-- A new node in front. -/
theorem insert_front (hs : Segment next val h p cells none) (hfree : h a = none)
    (hnew : h' a = some m) (hnext : next m = p) (hval : val m = b)
    (hother : ∀ d, d ≠ a → h' d = h d) : Segment next val h' (some a) ((a, b) :: cells) none := by
  refine ⟨rfl, m, hnew, hval, ?_⟩
  rw [hnext]
  refine hs.congr fun d hd => hother d ?_
  rintro rfl
  exact hs.not_mem_of_free hfree hd

/-- A new node behind the one at `c`, which takes over the pointer of that one. -/
theorem insert_after (hs : Segment next val h p (cells ++ (c, v) :: cells') none)
    (hfree : h a = none) (hc : h c = some n) {n' : ν} (hc' : h' c = some n')
    (hval' : val n' = val n) (hnext' : next n' = some a) (hnew : h' a = some m)
    (hnext : next m = next n) (hval : val m = b) (hother : ∀ d, d ≠ a → d ≠ c → h' d = h d) :
    Segment next val h' p (cells ++ (c, v) :: (a, b) :: cells') none := by
  have hnot := hs.not_mem_of_free hfree
  have hnodup := hs.nodup
  rw [addresses, List.map_append, List.map_cons] at hnot hnodup
  obtain ⟨-, hright, hcross⟩ := List.nodup_append.mp hnodup
  obtain ⟨mid, hleft, rfl, k, hk, rfl, hrest⟩ := append_iff.mp hs
  obtain rfl : k = n := Option.some.inj (hk.symm.trans hc)
  refine append_iff.mpr ⟨_, hleft.congr fun d hd => hother d ?_ ?_, rfl, n', hc', hval', ?_⟩
  · rintro rfl
    exact hnot (List.mem_append_left _ hd)
  · exact hcross d hd c List.mem_cons_self
  · refine ⟨hnext', m, hnew, hval, ?_⟩
    rw [hnext]
    refine hrest.congr fun d hd => hother d ?_ ?_
    · rintro rfl
      exact hnot (List.mem_append_right _ (List.mem_cons_of_mem _ hd))
    · rintro rfl
      exact (List.nodup_cons.mp hright).1 hd

/-- The first node is gone. -/
theorem remove_front (hs : Segment next val h p ((a, b) :: cells) none) (ha : h a = some n)
    (hother : ∀ d, d ≠ a → h' d = h d) : Segment next val h' (next n) cells none := by
  have hnot := (List.nodup_cons.mp hs.nodup).1
  obtain ⟨-, k, hk, -, hrest⟩ := hs
  obtain rfl : k = n := Option.some.inj (hk.symm.trans ha)
  refine hrest.congr fun d hd => hother d ?_
  rintro rfl
  exact hnot hd

end Segment
end Nachos.Lib

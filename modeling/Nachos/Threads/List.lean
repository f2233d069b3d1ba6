import Nachos.Lib.Run
import Nachos.Lib.Segment
import Nachos.Lib.SortedList
import Nachos.Threads.Utility

/-! Lists (list.cc): elements allocated one by one and linked through `next`, with
a pointer to each end and a counter. An item is a `void *`, so that it can be NULL.

`new` may return any address that is not in use, and a pointer is only followed to
an element that is allocated: everything else is undefined. -/

namespace Nachos
open Lib

variable {ι : Type}

/-- The line of list.h that declares `next` has been lost; all of list.cc uses it. -/
structure ListElement (ι : Type) where
  next : Option Nat
  key : Int
  item : Option ι

/-- What the element holds. -/
def ListElement.entry (e : ListElement ι) : Int × Option ι := (e.key, e.item)

/-- The elements of all lists. -/
abbrev ListHeap (ι : Type) := Heap (ListElement ι)

/-- `new ListElement(itemPtr, sortKey)`, at the address `element`. -/
def ListElement.new (h : ListHeap ι) (element : Nat) (itemPtr : Option ι) (sortKey : Int) :
    Except Fault (ListHeap ι) :=
  if (h element).isNone then .ok (Function.update h element (some ⟨none, sortKey, itemPtr⟩))
  else .error .disabled

/-- `*ptr`. -/
def ListElement.load (h : ListHeap ι) (ptr : Option Nat) : Except Fault (ListElement ι) :=
  match ptr.bind h with
  | none => .error .undefined
  | some e => .ok e

/-- `ptr->next = next`. -/
def ListElement.setNext (h : ListHeap ι) (ptr next : Option Nat) : Except Fault (ListHeap ι) :=
  match ptr with
  | none => .error .undefined
  | some a => do
    let e ← load h (some a)
    .ok (Function.update h a (some { e with next := next }))

/-- `List`. -/
structure LinkedList where
  first : Option Nat
  last : Option Nat
  size : Int32
  deriving DecidableEq, Repr

namespace LinkedList
open ListElement (load setNext)

/-- `List::List`. -/
def new : LinkedList := ⟨none, none, 0⟩

def getSize (l : LinkedList) : Int32 := l.size

def isEmpty (l : LinkedList) : Bool := l.first.isNone

def append (l : LinkedList) (h : ListHeap ι) (element : Nat) (item : Option ι) :
    Except Fault (ListHeap ι × LinkedList) := do
  let h ← ListElement.new h element item 0
  let l := { l with size := l.size + 1 }
  if l.isEmpty then .ok (h, { l with first := some element, last := some element })
  else do
    let h ← setNext h l.last (some element)
    .ok (h, { l with last := some element })

def prepend (l : LinkedList) (h : ListHeap ι) (element : Nat) (item : Option ι) :
    Except Fault (ListHeap ι × LinkedList) := do
  let h ← ListElement.new h element item 0
  let l := { l with size := l.size + 1 }
  if l.isEmpty then .ok (h, { l with first := some element, last := some element })
  else do
    let h ← setNext h (some element) l.first
    .ok (h, { l with first := some element })

/-- The loop of `SortedInsert`, from `ptr` on: the element in front of the first one
with a larger key, if there is one. -/
def seek (h : ListHeap ι) (sortKey : Int) : Nat → Option Nat → Except Fault (Option Nat)
  | 0, _ => .error .disabled
  | fuel + 1, ptr => do
    let e ← load h ptr
    if e.next.isNone then .ok none
    else do
      let following ← load h e.next
      if sortKey < following.key then .ok ptr else seek h sortKey fuel e.next

/-- The assignments in this loop: `element->next = ptr->next` and
`ptr->next = element`. -/
def insertAfter (h : ListHeap ι) (element ptr : Nat) : Except Fault (ListHeap ι) := do
  let e ← load h (some ptr)
  let h ← setNext h (some element) e.next
  setNext h (some ptr) (some element)

def sortedInsert (l : LinkedList) (h : ListHeap ι) (element fuel : Nat) (item : Option ι)
    (sortKey : Int) : Except Fault (ListHeap ι × LinkedList) := do
  let h ← ListElement.new h element item sortKey
  if l.isEmpty then .ok (h, { l with first := some element, last := some element })
  else do
    let head ← load h l.first
    if sortKey < head.key then do
      let h ← setNext h (some element) l.first
      .ok (h, { l with first := some element })
    else
      match ← seek h sortKey fuel l.first with
      | some ptr => do
        let h ← insertAfter h element ptr
        .ok (h, l)
      | none => do
        let h ← setNext h l.last (some element)
        .ok (h, { l with last := some element })

/-- `SortedRemove`: the item, and what goes to `*keyPtr` if this is not NULL. -/
def sortedRemove (l : LinkedList) (h : ListHeap ι) :
    Except Fault ((Option ι × Option Int) × ListHeap ι × LinkedList) :=
  match l.first with
  | none => .ok ((none, none), h, l)
  | some element => do
    let e ← load h (some element)
    let l := if l.first = l.last then { l with first := none, last := none }
      else { l with first := e.next }
    .ok ((e.item, some e.key), Function.update h element none, l)

def remove (l : LinkedList) (h : ListHeap ι) :
    Except Fault (Option ι × ListHeap ι × LinkedList) := do
  let ((thing, _), h, l) ← sortedRemove { l with size := l.size - 1 } h
  .ok (thing, h, l)

/-- `List::~List`: the elements are deleted as long as `Remove` returns an item. -/
def destroy : Nat → LinkedList → ListHeap ι → Except Fault (ListHeap ι)
  | 0, _, _ => .error .disabled
  | fuel + 1, l, h => do
    let (thing, h, l) ← l.remove h
    if thing.isNone then .ok h else destroy fuel l h

/-- `List::Mapcar`, from `ptr` on: the items that `func` is called with. It does not
change the list. -/
def mapcar (h : ListHeap ι) : Nat → Option Nat → Except Fault (List (Option ι))
  | 0, _ => .error .disabled
  | _ + 1, none => .ok []
  | fuel + 1, some a => do
    let e ← load h (some a)
    let items ← mapcar h fuel e.next
    .ok (e.item :: items)

/-! ## The list that the pointers make up -/

/-- From `first` on the elements are `cells`, and `last` is the last of them. -/
structure Holds (l : LinkedList) (h : ListHeap ι) (cells : List (Nat × Int × Option ι)) : Prop where
  path : Segment ListElement.next ListElement.entry h l.first cells none
  last : l.last = (addresses cells).getLast?

/-- What an operation makes of a list and of the heap: the list has the elements
`cells'` instead of `cells`. New elements have been free, those taken off are free
now, and everything else is as it was. -/
structure Turns (h : ListHeap ι) (cells : List (Nat × Int × Option ι)) (h' : ListHeap ι)
    (l' : LinkedList) (cells' : List (Nat × Int × Option ι)) : Prop where
  holds : l'.Holds h' cells'
  other : ∀ d, d ∉ addresses cells → d ∉ addresses cells' → h' d = h d
  gained : ∀ d ∈ addresses cells', d ∉ addresses cells → h d = none
  lost : ∀ d ∈ addresses cells, d ∉ addresses cells' → h' d = none

variable {l l' : LinkedList} {h h' : ListHeap ι} {a c : Nat} {item : Option ι} {key : Int}
variable {cells cells' xs ys : List (Nat × Int × Option ι)} {size : Int32}

theorem new_of_free (hfree : h a = none) : ListElement.new h a item key =
    .ok (Function.update h a (some ⟨none, key, item⟩)) := by
  rw [ListElement.new, hfree]
  rfl

theorem new_of_used (hused : h a ≠ none) (item : Option ι) (key : Int) :
    ListElement.new h a item key = .error .disabled := by
  rw [ListElement.new, if_neg]
  rw [Option.isNone_iff_eq_none]
  exact hused

theorem ne_of_free {e : ListElement ι} (hfree : h a = none) (hc : h c = some e) : c ≠ a := by
  rintro rfl
  rw [hfree] at hc
  cases hc

theorem load_some {e : ListElement ι} (he : h a = some e) : load h (some a) = .ok e := by
  rw [load, Option.bind_some, he]

theorem setNext_some {e : ListElement ι} {next : Option Nat} (he : h a = some e) :
    setNext h (some a) next = .ok (Function.update h a (some { e with next := next })) := by
  rw [setNext, load_some he, ok_bind]

theorem holds_new : new.Holds h [] := ⟨rfl, rfl⟩

namespace Holds

/-- Neither the counter nor the rest of the heap matters. -/
theorem congr (H : l.Holds h cells) (heq : ∀ d ∈ addresses cells, h' d = h d)
    (hfirst : l'.first = l.first) (hlast : l'.last = l.last) : l'.Holds h' cells where
  path := hfirst ▸ H.path.congr heq
  last := hlast.trans H.last

theorem first_eq (H : l.Holds h cells) : l.first = (addresses cells).head? := by
  cases cells with
  | nil => exact H.path
  | cons x cells => exact H.path.1

theorem isEmpty_eq (H : l.Holds h cells) : l.isEmpty = cells.isEmpty := by
  rw [isEmpty, H.first_eq]
  cases cells <;> rfl

theorem first_eq_none (H : l.Holds h cells) : l.first = none ↔ cells = [] := by
  rw [H.first_eq, List.head?_eq_none_iff, List.map_eq_nil_iff]

theorem last_eq_none (H : l.Holds h cells) : l.last = none ↔ cells = [] := by
  rw [H.last, List.getLast?_eq_none_iff, List.map_eq_nil_iff]

end Holds

/-! ### Insertion -/

/-- One element more, in a heap changed nowhere else. -/
theorem turns_of_insert (hfree : h a = none)
    (hmem : ∀ d, d ∈ addresses cells' ↔ d = a ∨ d ∈ addresses cells)
    (hother : ∀ d, d ∉ addresses cells' → h' d = h d) (H : l'.Holds h' cells') :
    Turns h cells h' l' cells' where
  holds := H
  other := fun d _ hd => hother d hd
  gained := by
    intro d hd hnot
    rw [((hmem d).mp hd).resolve_right hnot]
    exact hfree
  lost := fun d hd hnot => absurd ((hmem d).mpr (.inr hd)) hnot

/-- The only element. -/
theorem turns_only (hfree : h a = none) : Turns h [] (Function.update h a (some ⟨none, key, item⟩))
    ⟨some a, some a, size⟩ [(a, key, item)] := by
  refine turns_of_insert hfree (fun d => List.mem_cons) (fun d hd => ?_) ⟨?_, rfl⟩
  · exact Function.update_of_ne (List.ne_of_not_mem_cons hd) _ _
  · exact ⟨rfl, _, Function.update_self .., rfl, rfl⟩

/-- `element->next = first`, and the element is the first one. -/
theorem Holds.link_first (H : l.Holds h cells) (hne : cells ≠ []) (hfree : h a = none) :
    ∃ h', setNext (Function.update h a (some ⟨none, key, item⟩)) (some a) l.first = .ok h' ∧
      Turns h cells h' ⟨some a, l.last, size⟩ ((a, key, item) :: cells) := by
  refine ⟨_, setNext_some (Function.update_self ..), ?_⟩
  rw [Function.update_idem]
  refine turns_of_insert hfree (fun d => List.mem_cons) (fun d hd => ?_) ⟨?_, ?_⟩
  · exact Function.update_of_ne (List.ne_of_not_mem_cons hd) _ _
  · exact H.path.insert_front hfree (Function.update_self ..) rfl rfl
      fun d hd => Function.update_of_ne hd _ _
  · rw [H.last]
    exact (List.getLast?_cons_of_ne_nil (by simpa using hne)).symm

/-- `ptr->next = element` for the element that has taken over the `next` of `*ptr`. -/
theorem Holds.link_after {v : Int × Option ι} {n : ListElement ι}
    (H : l.Holds h (xs ++ (c, v) :: ys)) (hfree : h a = none) (hc : h c = some n)
    {last : Option Nat} (hlast : last = (addresses ((a, key, item) :: ys)).getLast?) :
    ∃ h', setNext (Function.update h a (some ⟨n.next, key, item⟩)) (some c) (some a) = .ok h' ∧
      Turns h (xs ++ (c, v) :: ys) h' ⟨l.first, last, size⟩
        (xs ++ (c, v) :: (a, key, item) :: ys) := by
  have hne := ne_of_free hfree hc
  refine ⟨_, setNext_some ((Function.update_of_ne hne _ _).trans hc), ?_⟩
  refine turns_of_insert hfree (fun d => ?_) (fun d hd => ?_) ⟨?_, ?_⟩
  · simp only [addresses, List.map_append, List.map_cons, List.mem_append, List.mem_cons]
    tauto
  · simp only [addresses, List.map_append, List.map_cons, List.mem_append, List.mem_cons,
      not_or] at hd
    rw [Function.update_of_ne hd.2.1, Function.update_of_ne hd.2.2.1]
  · have hnew : Function.update (Function.update h a (some ⟨n.next, key, item⟩)) c
        (some { n with next := some a }) a = some ⟨n.next, key, item⟩ := by
      rw [Function.update_of_ne hne.symm, Function.update_self]
    refine H.path.insert_after hfree hc (Function.update_self ..) rfl rfl hnew rfl rfl
      fun d ha hc => ?_
    rw [Function.update_of_ne hc, Function.update_of_ne ha]
  · rw [hlast, List.append_cons, addresses, addresses, List.map_append]
    exact (List.getLast?_append_of_ne_nil _ (List.cons_ne_nil _ _)).symm

/-- `last->next = element`, and the element is the last one. -/
theorem Holds.link_last (H : l.Holds h cells) (hne : cells ≠ []) (hfree : h a = none) :
    ∃ h', setNext (Function.update h a (some ⟨none, key, item⟩)) l.last (some a) = .ok h' ∧
      Turns h cells h' ⟨l.first, some a, size⟩ (cells ++ [(a, key, item)]) := by
  obtain rfl | ⟨xs, ⟨c, v⟩, rfl⟩ := List.eq_nil_or_concat' cells
  · exact absurd rfl hne
  · obtain ⟨_, -, rfl, n, hc, -, hend⟩ := Segment.append_iff.mp H.path
    have hlast : l.last = some c := by
      rw [H.last, addresses, List.map_append]
      exact List.getLast?_concat
    rw [hlast, List.append_assoc, ← (hend : n.next = none)]
    exact H.link_after hfree hc rfl

theorem Holds.insertAfter {v : Int × Option ι} {y : Nat × Int × Option ι}
    (H : l.Holds h (xs ++ (c, v) :: y :: ys)) (hfree : h a = none) :
    ∃ h', LinkedList.insertAfter (Function.update h a (some ⟨none, key, item⟩)) a c = .ok h' ∧
      Turns h (xs ++ (c, v) :: y :: ys) h' l (xs ++ (c, v) :: (a, key, item) :: y :: ys) := by
  obtain ⟨_, -, rfl, n, hc, -, -⟩ := Segment.append_iff.mp H.path
  have hne := ne_of_free hfree hc
  have hlast : l.last = (addresses ((a, key, item) :: y :: ys)).getLast? := by
    rw [H.last, List.append_cons, addresses, List.map_append]
    exact (List.getLast?_append_of_ne_nil _ (List.cons_ne_nil _ _)).trans
      List.getLast?_cons_cons.symm
  rw [LinkedList.insertAfter, load_some ((Function.update_of_ne hne _ _).trans hc), ok_bind,
    setNext_some (Function.update_self ..), ok_bind, Function.update_idem]
  exact H.link_after hfree hc hlast

/-! ### The operations -/

theorem Holds.append_spec (H : l.Holds h cells) (hfree : h a = none) (item : Option ι) :
    ∃ h' l', l.append h a item = .ok (h', l') ∧ l'.size = l.size + 1 ∧
      Turns h cells h' l' (cells ++ [(a, 0, item)]) := by
  have hempty : isEmpty { l with size := l.size + 1 } = cells.isEmpty := H.isEmpty_eq
  rw [append, new_of_free hfree, ok_bind]
  dsimp only
  rw [hempty]
  cases cells with
  | nil => exact ⟨_, _, rfl, rfl, turns_only hfree⟩
  | cons x cells =>
    obtain ⟨h', hset, hturns⟩ := H.link_last (List.cons_ne_nil _ _) hfree
    rw [List.isEmpty_cons, if_neg Bool.false_ne_true, hset, ok_bind]
    exact ⟨_, _, rfl, rfl, hturns⟩

theorem Holds.prepend_spec (H : l.Holds h cells) (hfree : h a = none) (item : Option ι) :
    ∃ h' l', l.prepend h a item = .ok (h', l') ∧ l'.size = l.size + 1 ∧
      Turns h cells h' l' ((a, 0, item) :: cells) := by
  have hempty : isEmpty { l with size := l.size + 1 } = cells.isEmpty := H.isEmpty_eq
  rw [prepend, new_of_free hfree, ok_bind]
  dsimp only
  rw [hempty]
  cases cells with
  | nil => exact ⟨_, _, rfl, rfl, turns_only hfree⟩
  | cons x cells =>
    obtain ⟨h', hset, hturns⟩ := H.link_first (List.cons_ne_nil _ _) hfree
    rw [List.isEmpty_cons, if_neg Bool.false_ne_true, hset, ok_bind]
    exact ⟨_, _, rfl, rfl, hturns⟩

/-- The loop finds the place of the key, unless it has less rounds than elements in
front of it. -/
theorem seek_cases {p : Option Nat} {v : Int × Option ι} (hv : v.1 ≤ key)
    (hs : Segment ListElement.next ListElement.entry h p ((c, v) :: cells) none) (fuel : Nat) :
    (seek h key fuel p = .error .disabled ∧ fuel ≤ cells.length) ∨
    ∃ xs c' v' ys, (c, v) :: cells = xs ++ (c', v') :: ys ∧
      (∀ x ∈ xs ++ [(c', v')], x.2.1 ≤ key) ∧ (∀ y ∈ ys.head?, key < y.2.1) ∧
      seek h key fuel p = .ok (if ys.isEmpty then none else some c') := by
  induction cells generalizing p c v fuel with
  | nil =>
    cases fuel with
    | zero => exact .inl ⟨rfl, Nat.le_refl _⟩
    | succ fuel =>
      obtain ⟨rfl, n, hn, -, hend⟩ := hs
      refine .inr ⟨[], c, v, [], rfl, by simpa using hv, by simp, ?_⟩
      rw [seek, load_some hn, ok_bind, (hend : n.next = none)]
      rfl
  | cons y cells ih =>
    obtain ⟨d, w⟩ := y
    cases fuel with
    | zero => exact .inl ⟨rfl, Nat.zero_le _⟩
    | succ fuel =>
      obtain ⟨rfl, n, hn, -, hrest⟩ := hs
      obtain ⟨hnext, m, hm, hentry, -⟩ := id hrest
      have hkey : m.key = w.1 := congrArg Prod.fst hentry
      have hround : seek h key (fuel + 1) (some c) =
          if key < w.1 then .ok (some c) else seek h key fuel n.next := by
        rw [seek, load_some hn, ok_bind, hnext, Option.isNone_some, if_neg Bool.false_ne_true,
          load_some hm, ok_bind, hkey]
      rw [hround]
      by_cases hlt : key < w.1
      · refine .inr ⟨[], c, v, (d, w) :: cells, rfl, by simpa using hv, ?_, ?_⟩
        · rintro _ ⟨⟩
          exact hlt
        · rw [if_pos hlt]
          rfl
      · rw [if_neg hlt]
        rcases ih (Int.not_lt.mp hlt) hrest fuel with
          ⟨hdis, hle⟩ | ⟨xs, c', v', ys, heq, hle, hgt, hok⟩
        · exact .inl ⟨hdis, Nat.succ_le_succ hle⟩
        · refine .inr ⟨(c, v) :: xs, c', v', ys, by rw [heq]; rfl, ?_, hgt, hok⟩
          intro x hx
          rcases List.mem_cons.mp hx with rfl | hx
          · exact hv
          · exact hle x hx

/-- `SortedInsert` puts the item where the key belongs. -/
theorem Holds.sortedInsert_cases (H : l.Holds h cells) (hfree : h a = none) (item : Option ι)
    (key : Int) (fuel : Nat) :
    (l.sortedInsert h a fuel item key = .error .disabled ∧ fuel < cells.length) ∨
    ∃ h' l' xs ys, cells = xs ++ ys ∧ (∀ x ∈ xs, x.2.1 ≤ key) ∧ (∀ y ∈ ys.head?, key < y.2.1) ∧
      l.sortedInsert h a fuel item key = .ok (h', l') ∧ l'.size = l.size ∧
      Turns h cells h' l' (xs ++ (a, key, item) :: ys) := by
  have hempty := H.isEmpty_eq
  rw [sortedInsert, new_of_free hfree, ok_bind, hempty]
  cases cells with
  | nil => exact .inr ⟨_, _, [], [], rfl, by simp, by simp, rfl, rfl, turns_only hfree⟩
  | cons x cells =>
    obtain ⟨c, v⟩ := x
    -- the elements of the list are as they were before `new`
    have hpath : Segment ListElement.next ListElement.entry
        (Function.update h a (some ⟨none, key, item⟩)) l.first ((c, v) :: cells) none := by
      refine H.path.congr fun d hd => Function.update_of_ne ?_ _ _
      rintro rfl
      exact H.path.not_mem_of_free hfree hd
    obtain ⟨hfirst, n, hn, hentry, -⟩ := id hpath
    have hkey : n.key = v.1 := congrArg Prod.fst hentry
    rw [List.isEmpty_cons, if_neg Bool.false_ne_true, hfirst, load_some hn, ok_bind, hkey, ← hfirst]
    by_cases hlt : key < v.1
    · obtain ⟨h', hset, hturns⟩ := H.link_first (List.cons_ne_nil _ _) hfree
      rw [if_pos hlt, hset, ok_bind]
      exact .inr ⟨_, _, [], _, rfl, by simp, by simpa using hlt, rfl, rfl, hturns⟩
    · rw [if_neg hlt]
      rcases seek_cases (Int.not_lt.mp hlt) hpath fuel with
        ⟨hdis, hle⟩ | ⟨xs, c', v', ys, heq, hle, hgt, hok⟩
      · rw [hdis, error_bind]
        exact .inl ⟨rfl, Nat.lt_succ_of_le hle⟩
      · refine .inr ?_
        rw [hok, ok_bind, heq]
        rw [heq] at H
        cases ys with
        | nil =>
          obtain ⟨h', hset, hturns⟩ := H.link_last (by simp) hfree
          rw [List.isEmpty_nil, if_pos rfl]
          dsimp only
          rw [hset, ok_bind]
          exact ⟨_, _, xs ++ [(c', v')], [], by simp, hle, by simp, rfl, rfl, hturns⟩
        | cons y ys =>
          obtain ⟨h', hset, hturns⟩ := H.insertAfter hfree
          rw [List.isEmpty_cons, if_neg Bool.false_ne_true]
          dsimp only
          rw [hset, ok_bind]
          exact ⟨_, _, xs ++ [(c', v')], y :: ys, by simp, hle, hgt, rfl, rfl,
            by simpa using hturns⟩

theorem Holds.sortedRemove_spec (H : l.Holds h cells) :
    ∃ h' l', l.sortedRemove h =
        .ok ((cells.head?.bind fun x => x.2.2, cells.head?.map fun x => x.2.1), h', l') ∧
      l'.size = l.size ∧ Turns h cells h' l' cells.tail := by
  cases cells with
  | nil =>
    refine ⟨h, l, ?_, rfl, H, fun _ _ _ => rfl, fun _ hd => (nomatch hd), fun _ hd => (nomatch hd)⟩
    rw [sortedRemove, H.first_eq]
    rfl
  | cons x cells =>
    obtain ⟨c, v⟩ := x
    obtain ⟨hfirst, n, hn, rfl, hrest⟩ := id H.path
    have hother (d : Nat) (hd : d ≠ c) : Function.update h c none d = h d :=
      Function.update_of_ne hd _ _
    have hturns (l' : LinkedList) (hf : l'.first = n.next)
        (hl : l'.last = (addresses cells).getLast?) :
        Turns h ((c, n.entry) :: cells) (Function.update h c none) l' cells := by
      refine ⟨⟨hf ▸ H.path.remove_front hn hother, hl⟩, fun d hd _ => ?_, fun d hd hnot => ?_,
        fun d hd hnot => ?_⟩
      · exact hother d (List.ne_of_not_mem_cons hd)
      · exact absurd (List.mem_cons_of_mem _ hd) hnot
      · rw [(List.mem_cons.mp hd).resolve_right hnot]
        exact Function.update_self ..
    rw [sortedRemove, hfirst]
    dsimp only
    rw [load_some hn, ok_bind]
    cases cells with
    | nil =>
      have hend : n.next = none := hrest
      have hlast : l.last = some c := H.last
      rw [hlast, if_pos rfl]
      exact ⟨_, _, rfl, rfl, hturns _ hend.symm rfl⟩
    | cons y cells =>
      have hlast : l.last = (addresses (y :: cells)).getLast? := by
        rw [H.last]
        exact List.getLast?_cons_cons
      have hne : ¬ some c = l.last := by
        rw [hlast]
        intro hc
        exact (List.nodup_cons.mp H.path.nodup).1 (List.mem_of_getLast? hc.symm)
      rw [if_neg hne]
      exact ⟨_, _, rfl, rfl, hturns _ rfl hlast⟩

theorem Holds.remove_spec (H : l.Holds h cells) :
    ∃ h' l', l.remove h = .ok (cells.head?.bind fun x => x.2.2, h', l') ∧
      l'.size = l.size - 1 ∧ Turns h cells h' l' cells.tail := by
  have H' : Holds { l with size := l.size - 1 } h cells := ⟨H.path, H.last⟩
  obtain ⟨h', l', hcall, hsize, hturns⟩ := H'.sortedRemove_spec
  rw [remove, hcall, ok_bind]
  exact ⟨h', l', rfl, hsize, hturns⟩

/-- A list without NULL items is deleted with all its elements. -/
theorem Holds.destroy_spec {fuel : Nat} (H : l.Holds h cells) (hitems : ∀ x ∈ cells, x.2.2 ≠ none)
    (hfuel : cells.length < fuel) :
    ∃ h', destroy fuel l h = .ok h' ∧ (∀ d ∈ addresses cells, h' d = none) ∧
      ∀ d, d ∉ addresses cells → h' d = h d := by
  induction cells generalizing l h fuel with
  | nil =>
    obtain ⟨fuel, rfl⟩ := Nat.exists_eq_add_one_of_ne_zero (Nat.ne_of_gt hfuel)
    obtain ⟨h', l', hcall, -, hturns⟩ := H.remove_spec
    rw [destroy, hcall, ok_bind]
    exact ⟨h', rfl, fun d hd => (nomatch hd), fun d hd => hturns.other d hd hd⟩
  | cons x cells ih =>
    obtain ⟨fuel, rfl⟩ := Nat.exists_eq_add_one_of_ne_zero (Nat.ne_of_gt (Nat.zero_lt_of_lt hfuel))
    obtain ⟨h₁, l₁, hcall, -, hturns⟩ := H.remove_spec
    obtain ⟨h', hrest, hgone, hother⟩ := ih hturns.holds
      (fun y hy => hitems y (List.mem_cons_of_mem _ hy)) (Nat.lt_of_succ_lt_succ hfuel)
    have hitem : ¬ x.2.2.isNone = true := by
      rw [Option.isNone_iff_eq_none]
      exact hitems x List.mem_cons_self
    rw [destroy, hcall, ok_bind]
    refine ⟨h', (if_neg hitem).trans hrest, fun d hd => ?_, fun d hd => ?_⟩
    · by_cases hin : d ∈ addresses cells
      · exact hgone d hin
      · rw [hother d hin]
        exact hturns.lost d hd hin
    · have hin : d ∉ addresses cells := fun hin => hd (List.mem_cons_of_mem _ hin)
      rw [hother d hin, hturns.other d hd hin]

/-- `Mapcar` goes through the items in their order. -/
theorem mapcar_spec {p : Option Nat} {fuel : Nat}
    (hs : Segment ListElement.next ListElement.entry h p cells none) (hfuel : cells.length < fuel) :
    mapcar h fuel p = .ok (cells.map fun x => x.2.2) := by
  induction cells generalizing p fuel with
  | nil =>
    obtain ⟨fuel, rfl⟩ := Nat.exists_eq_add_one_of_ne_zero (Nat.ne_of_gt hfuel)
    rw [(hs : p = none), mapcar]
    rfl
  | cons x cells ih =>
    obtain ⟨fuel, rfl⟩ := Nat.exists_eq_add_one_of_ne_zero (Nat.ne_of_gt (Nat.zero_lt_of_lt hfuel))
    obtain ⟨rfl, n, hn, hentry, hrest⟩ := hs
    have hitem : n.item = x.2.2 := congrArg Prod.snd hentry
    rw [mapcar, load_some hn, ok_bind, ih hrest (Nat.lt_of_succ_lt_succ hfuel), ok_bind, hitem]
    rfl

end LinkedList
end Nachos

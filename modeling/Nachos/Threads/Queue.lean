import Mathlib.Algebra.Order.BigOperators.Group.List
import Mathlib.Algebra.Order.Group.Nat
import Mathlib.Algebra.Order.Ring.Int
import Nachos.Threads.List

/-! What the lists of list.cc are for: queues, and queues in the order of a key with
equal keys first come, first served. Any number of lists share one heap; over any
interleaving of calls, each of them is the sequence that its own calls make up, and
every call returns what this sequence says. The counter is another matter: only
three of the five operations know of it. -/

namespace Nachos
open Lib

variable {ι : Type}

inductive ListOp (ι : Type)
  | append (item : Option ι)
  | prepend (item : Option ι)
  | remove
  | sortedInsert (item : Option ι) (sortKey : Int)
  | sortedRemove

/-! ## Sequences -/

namespace ListOp

/-- The sequence of keys and items behind the operation. -/
def apply : ListOp ι → List (Int × Option ι) → List (Int × Option ι)
  | append item, xs => xs ++ [(0, item)]
  | prepend item, xs => (0, item) :: xs
  | remove, xs => xs.tail
  | sortedInsert item sortKey, xs => Lib.sortedInsert item sortKey xs
  | sortedRemove, xs => xs.tail

/-- The item that a removal returns, and the key that it stores. -/
def returns : ListOp ι → List (Int × Option ι) → Option (Option ι × Option Int)
  | remove, xs => some (xs.head?.bind Prod.snd, none)
  | sortedRemove, xs => some (xs.head?.bind Prod.snd, xs.head?.map Prod.fst)
  | _, _ => none

def sequence (ops : List (ListOp ι)) (xs : List (Int × Option ι)) : List (Int × Option ι) :=
  ops.foldl (fun xs op => op.apply xs) xs

/-- Everything that is returned. -/
def outputs : List (ListOp ι) → List (Int × Option ι) → List (Option ι × Option Int)
  | [], _ => []
  | op :: ops, xs => (op.returns xs).toList ++ outputs ops (op.apply xs)

def Sorted : ListOp ι → Prop
  | sortedInsert .. | sortedRemove => True
  | _ => False

/-- The keys and items put on a list by `SortedInsert`. -/
def inserted (ops : List (ListOp ι)) : List (Int × Option ι) :=
  ops.filterMap fun
    | sortedInsert item sortKey => some (sortKey, item)
    | _ => none

/-- The keys and items that `SortedRemove` has returned. -/
def taken (returned : List (Option ι × Option Int)) : List (Int × Option ι) :=
  returned.filterMap fun r => r.2.map fun key => (key, r.1)

variable {xs : List (Int × Option ι)} {ops : List (ListOp ι)}

theorem Sorted.keySorted {op : ListOp ι} (hop : op.Sorted) (h : KeySorted xs) :
    KeySorted (op.apply xs) := by
  cases op with
  | sortedInsert item sortKey => exact h.insert item sortKey
  | sortedRemove =>
    cases xs with
    | nil => exact h
    | cons x xs => exact h.tail
  | append | prepend | remove => exact hop.elim

theorem sequence_keySorted (hops : ∀ op ∈ ops, op.Sorted) (h : KeySorted xs) :
    KeySorted (sequence ops xs) := by
  induction ops generalizing xs with
  | nil => exact h
  | cons op ops ih =>
    exact ih (fun o ho => hops o (List.mem_cons_of_mem _ ho))
      ((hops op List.mem_cons_self).keySorted h)

/-- The items of one key leave in the order they came in: those taken, followed by
those left, are those put in. -/
theorem stable (hops : ∀ op ∈ ops, op.Sorted) (h : KeySorted xs) (key : Int) :
    (taken (outputs ops xs) ++ sequence ops xs).filter (fun x => x.1 = key) =
      (xs ++ inserted ops).filter fun x => x.1 = key := by
  induction ops generalizing xs with
  | nil => simp [taken, outputs, sequence, inserted]
  | cons op ops ih =>
    have hrest := ih (fun o ho => hops o (List.mem_cons_of_mem _ ho))
      ((hops op List.mem_cons_self).keySorted h)
    cases op with
    | sortedInsert item sortKey =>
      have hin : inserted (sortedInsert item sortKey :: ops) =
          (sortKey, item) :: inserted ops := rfl
      rw [apply, List.filter_append _ (inserted ops), h.filter_insert, ← List.filter_append,
        List.append_assoc] at hrest
      rw [hin]
      exact hrest
    | sortedRemove =>
      cases xs with
      | nil => exact hrest
      | cons x xs =>
        have hout : taken (outputs (sortedRemove :: ops) (x :: xs)) =
            x :: taken (outputs ops xs) := rfl
        rw [hout, List.cons_append, List.cons_append, List.filter_cons, List.filter_cons]
        exact congrArg (fun r => if decide (x.1 = key) = true then x :: r else r) hrest
    | append | prepend | remove => exact (hops _ List.mem_cons_self).elim

end ListOp

/-! ## Lists on one heap -/

/-- An operation, with the address that `new` gives it and the rounds of its loop. -/
def LinkedList.call (l : LinkedList) (h : ListHeap ι) (op : ListOp ι) (element fuel : Nat) :
    Except Fault (Option (Option ι × Option Int) × ListHeap ι × LinkedList) :=
  match op with
  | .append item => do
    let (h, l) ← l.append h element item
    .ok (none, h, l)
  | .prepend item => do
    let (h, l) ← l.prepend h element item
    .ok (none, h, l)
  | .remove => do
    let (thing, h, l) ← l.remove h
    .ok (some (thing, none), h, l)
  | .sortedInsert item sortKey => do
    let (h, l) ← l.sortedInsert h element fuel item sortKey
    .ok (none, h, l)
  | .sortedRemove => do
    let (result, h, l) ← l.sortedRemove h
    .ok (some result, h, l)

/-- The lists that there are; `returned` records what calls on each of them have
returned. -/
structure ListStore (ι : Type) where
  heap : ListHeap ι
  list : Nat → LinkedList
  returned : Nat → List (Option ι × Option Int)

namespace ListStore

/-- A call of an operation of one of the lists. -/
structure Call (ι : Type) where
  list : Nat
  op : ListOp ι
  element : Nat
  fuel : Nat

def new : ListStore ι where
  heap := fun _ => none
  list := fun _ => .new
  returned := fun _ => []

def step (s : ListStore ι) (e : Call ι) : Except Fault (ListStore ι) := do
  let (result, h, l) ← (s.list e.list).call s.heap e.op e.element e.fuel
  .ok { heap := h, list := Function.update s.list e.list l,
        returned := Function.update s.returned e.list (s.returned e.list ++ result.toList) }

/-- The operations of list `k`. -/
def opsOn (k : Nat) (es : List (Call ι)) : List (ListOp ι) :=
  (es.filter fun e => e.list = k).map Call.op

end ListStore

/-- The keys and items of the elements. -/
abbrev LinkedList.entries (cells : List (Nat × Int × Option ι)) : List (Int × Option ι) :=
  cells.map Prod.snd

/-- What the operation makes of the counter. -/
def ListOp.counter : ListOp ι → Int32 → Int32
  | .append _, size => size + 1
  | .prepend _, size => size + 1
  | .remove, size => size - 1
  | .sortedInsert .., size => size
  | .sortedRemove, size => size

namespace LinkedList
variable {l : LinkedList} {h : ListHeap ι} {cells : List (Nat × Int × Option ι)}

theorem call_of_used {op : ListOp ι} {element : Nat} (hused : h element ≠ none) (fuel : Nat)
    (hop : ∀ xs, op.returns xs = none) : l.call h op element fuel = .error .disabled := by
  have hnew (item : Option ι) (key : Int) := new_of_used hused item key
  cases op with
  | append item => rw [call, append, hnew, error_bind, error_bind]
  | prepend item => rw [call, prepend, hnew, error_bind, error_bind]
  | sortedInsert item sortKey => rw [call, sortedInsert, hnew, error_bind, error_bind]
  | remove => cases hop []
  | sortedRemove => cases hop []

/-- An operation does to the elements what it does to the sequence; or `new` has
been given an address in use, or the loop too few rounds. -/
theorem Holds.call_cases (H : l.Holds h cells) (op : ListOp ι) (element fuel : Nat) :
    (l.call h op element fuel = .error .disabled ∧
      ¬ (h element = none ∧ cells.length ≤ fuel)) ∨
    ∃ h' l' cells', l.call h op element fuel = .ok (op.returns (entries cells), h', l') ∧
      entries cells' = op.apply (entries cells) ∧ l'.size = op.counter l.size ∧
      Turns h cells h' l' cells' := by
  have hused (hf : h element ≠ none) (hop : ∀ xs, op.returns xs = none) :
      l.call h op element fuel = .error .disabled ∧ ¬ (h element = none ∧ cells.length ≤ fuel) :=
    ⟨call_of_used hf fuel hop, fun hn => hf hn.1⟩
  cases op with
  | append item =>
    by_cases hfree : h element = none
    · obtain ⟨h', l', hcall, hsize, hturns⟩ := H.append_spec hfree item
      exact .inr ⟨h', l', _, by rw [call, hcall]; rfl, by simp [ListOp.apply], hsize, hturns⟩
    · exact .inl (hused hfree fun _ => rfl)
  | prepend item =>
    by_cases hfree : h element = none
    · obtain ⟨h', l', hcall, hsize, hturns⟩ := H.prepend_spec hfree item
      exact .inr ⟨h', l', _, by rw [call, hcall]; rfl, rfl, hsize, hturns⟩
    · exact .inl (hused hfree fun _ => rfl)
  | sortedInsert item sortKey =>
    by_cases hfree : h element = none
    · rcases H.sortedInsert_cases hfree item sortKey fuel with
        ⟨hdis, hlt⟩ | ⟨h', l', xs, ys, rfl, hle, hgt, hcall, hsize, hturns⟩
      · exact .inl ⟨by rw [call, hdis, error_bind], fun hn => Nat.not_le.mpr hlt hn.2⟩
      · refine .inr ⟨h', l', _, by rw [call, hcall]; rfl, ?_, hsize, hturns⟩
        have hle' : ∀ x ∈ entries xs, x.1 ≤ sortKey := List.forall_mem_map.mpr hle
        have hgt' : ∀ y ∈ (entries ys).head?, sortKey < y.1 := by
          cases ys with
          | nil => simp
          | cons y ys => simpa using hgt
        rw [ListOp.apply, entries, entries, List.map_append, List.map_append,
          sortedInsert_append hle' hgt']
        rfl
    · exact .inl (hused hfree fun _ => rfl)
  | remove =>
    obtain ⟨h', l', hcall, hsize, hturns⟩ := H.remove_spec
    refine .inr ⟨h', l', _, ?_, List.map_tail, hsize, hturns⟩
    rw [call, hcall]
    cases cells <;> rfl
  | sortedRemove =>
    obtain ⟨h', l', hcall, hsize, hturns⟩ := H.sortedRemove_spec
    refine .inr ⟨h', l', _, ?_, List.map_tail, hsize, hturns⟩
    rw [call, hcall]
    cases cells <;> rfl

end LinkedList

namespace ListStore
open LinkedList (entries)
variable {s s' : ListStore ι} {cells : Nat → List (Nat × Int × Option ι)} {es : List (Call ι)}
variable {k : Nat}

/-- Each list has elements of its own, and there are no others. -/
structure Represents (s : ListStore ι) (cells : Nat → List (Nat × Int × Option ι)) : Prop where
  holds : ∀ k, (s.list k).Holds s.heap (cells k)
  disjoint : ∀ j k a, a ∈ addresses (cells j) → a ∈ addresses (cells k) → j = k
  owned : ∀ a, s.heap a ≠ none → ∃ k, a ∈ addresses (cells k)

theorem new_represents : (new : ListStore ι).Represents fun _ => [] where
  holds := fun _ => LinkedList.holds_new
  disjoint := fun _ _ _ ha => (nomatch ha)
  owned := fun _ ha => absurd rfl ha

namespace Represents
variable {h' : ListHeap ι} {l' : LinkedList} {cells' : List (Nat × Int × Option ι)}

/-- What becomes of one list is nothing to the others. -/
theorem apart (R : s.Represents cells) (T : LinkedList.Turns s.heap (cells k) h' l' cells')
    {j a : Nat} (hj : j ≠ k) (ha : a ∈ addresses (cells j)) :
    a ∉ addresses (cells k) ∧ a ∉ addresses cells' := by
  have hk : a ∉ addresses (cells k) := fun hk => hj (R.disjoint j k a ha hk)
  refine ⟨hk, fun hnew => ?_⟩
  exact (R.holds j).path.not_mem_of_free (T.gained a hnew hk) ha

theorem turns (R : s.Represents cells) (T : LinkedList.Turns s.heap (cells k) h' l' cells')
    (returned : Nat → List (Option ι × Option Int)) :
    Represents ⟨h', Function.update s.list k l', returned⟩ (Function.update cells k cells') where
  holds := by
    intro j
    by_cases hj : j = k
    · subst hj
      simp only [Function.update_self]
      exact T.holds
    · simp only [Function.update_of_ne hj]
      refine (R.holds j).congr (fun a ha => ?_) rfl rfl
      obtain ⟨hold, hnew⟩ := R.apart T hj ha
      exact T.other a hold hnew
  disjoint := by
    intro i j a hi hj
    by_cases hik : i = k
    · by_cases hjk : j = k
      · rw [hik, hjk]
      · subst hik
        rw [Function.update_self] at hi
        rw [Function.update_of_ne hjk] at hj
        exact absurd hi (R.apart T hjk hj).2
    · rw [Function.update_of_ne hik] at hi
      by_cases hjk : j = k
      · subst hjk
        rw [Function.update_self] at hj
        exact absurd hj (R.apart T hik hi).2
      · rw [Function.update_of_ne hjk] at hj
        exact R.disjoint i j a hi hj
  owned := by
    intro a ha
    by_cases hnew : a ∈ addresses cells'
    · exact ⟨k, by rwa [Function.update_self]⟩
    · have hold : a ∉ addresses (cells k) := fun hold => ha (T.lost a hold hnew)
      obtain ⟨j, hj⟩ := R.owned a (T.other a hold hnew ▸ ha)
      have hjk : j ≠ k := fun hjk => hold (hjk ▸ hj)
      exact ⟨j, by rwa [Function.update_of_ne hjk]⟩

end Represents

/-- A call makes of its own list what the operation makes of a sequence. -/
theorem step_cases (R : s.Represents cells) (e : Call ι) :
    (step s e = .error .disabled ∧
      ¬ (s.heap e.element = none ∧ (cells e.list).length ≤ e.fuel)) ∨
    ∃ s' new, step s e = .ok s' ∧ s'.Represents (Function.update cells e.list new) ∧
      entries new = e.op.apply (entries (cells e.list)) ∧
      s'.returned = Function.update s.returned e.list
        (s.returned e.list ++ (e.op.returns (entries (cells e.list))).toList) ∧
      ∀ k, (s'.list k).size =
        if e.list = k then e.op.counter (s.list k).size else (s.list k).size := by
  rcases (R.holds e.list).call_cases e.op e.element e.fuel with
    ⟨hdis, hnot⟩ | ⟨h', l', new, hcall, hentries, hsize, hturns⟩
  · exact .inl ⟨by rw [step, hdis, error_bind], hnot⟩
  · refine .inr ⟨_, new, by rw [step, hcall]; rfl, R.turns hturns _, hentries, rfl, fun k => ?_⟩
    by_cases hk : e.list = k
    · subst hk
      rw [if_pos rfl, ← hsize]
      exact congrArg LinkedList.size (Function.update_self ..)
    · rw [if_neg hk]
      exact congrArg LinkedList.size (Function.update_of_ne (Ne.symm hk) ..)

theorem opsOn_cons (e : Call ι) (es : List (Call ι)) (k : Nat) :
    opsOn k (e :: es) = if e.list = k then e.op :: opsOn k es else opsOn k es := by
  unfold opsOn
  rw [List.filter_cons]
  by_cases hk : e.list = k <;> simp [hk]

/-- Every list goes its own way. -/
theorem run_represents (run : Run step s es s') (R : s.Represents cells) :
    ∃ cells', s'.Represents cells' ∧ ∀ k,
      entries (cells' k) = ListOp.sequence (opsOn k es) (entries (cells k)) ∧
      s'.returned k = s.returned k ++ ListOp.outputs (opsOn k es) (entries (cells k)) ∧
      (s'.list k).size = (opsOn k es).foldl (fun size op => op.counter size) (s.list k).size := by
  induction run generalizing cells with
  | nil => exact ⟨cells, R, fun k => ⟨rfl, (List.append_nil _).symm, rfl⟩⟩
  | @cons s e s₁ es t hstep _ ih =>
    rcases step_cases R e with ⟨hdis, -⟩ | ⟨s₂, new, hok, R₁, hnew, hret, hsize⟩
    · rw [hstep] at hdis
      cases hdis
    · obtain rfl : s₁ = s₂ := Except.ok.inj (hstep.symm.trans hok)
      obtain ⟨cells', R', hall⟩ := ih R₁
      refine ⟨cells', R', fun k => ?_⟩
      obtain ⟨hseq, hout, hcount⟩ := hall k
      rw [hseq, hout, hcount, hsize, hret, opsOn_cons]
      by_cases hk : e.list = k
      · subst hk
        simp only [Function.update_self, hnew, List.append_assoc]
        exact ⟨rfl, rfl, rfl⟩
      · simp only [if_neg hk, Function.update_of_ne (Ne.symm hk)]
        exact ⟨trivial, trivial, trivial⟩

/-- There is a run for every sequence of calls: there is always an address left. -/
theorem exists_run (calls : List (Nat × ListOp ι)) (R : s.Represents cells)
    (hroom : ∃ bound, ∀ a, bound ≤ a → s.heap a = none) :
    ∃ es s', Run step s es s' ∧ es.map (fun e => (e.list, e.op)) = calls := by
  induction calls generalizing s cells with
  | nil => exact ⟨[], s, .nil, rfl⟩
  | cons call calls ih =>
    obtain ⟨k, op⟩ := call
    obtain ⟨bound, hbound⟩ := hroom
    rcases step_cases R ⟨k, op, bound, (cells k).length⟩ with ⟨-, hnot⟩ | ⟨s₁, new, hok, R₁, -⟩
    · exact absurd ⟨hbound bound (Nat.le_refl _), Nat.le_refl _⟩ hnot
    · have hroom : ∀ a, bound + (addresses new).sum + 1 ≤ a → s₁.heap a = none := by
        intro a ha
        by_contra hused
        obtain ⟨j, hj⟩ := R₁.owned a hused
        by_cases hjk : j = k
        · subst hjk
          rw [Function.update_self] at hj
          have := List.le_sum_of_mem hj
          omega
        · rw [Function.update_of_ne hjk] at hj
          exact (R.holds j).path.not_mem_of_free (hbound a (by omega)) hj
      obtain ⟨es, s', hrun, hcalls⟩ := ih R₁ ⟨_, hroom⟩
      exact ⟨_, s', .cons hok hrun, congrArg ((k, op) :: ·) hcalls⟩

/-- Over any calls on any number of lists, the elements from `first` on are the
sequence that the operations of the list make up, `last` is the last of them, and
the calls have returned what the sequence says. With `SortedInsert` and
`SortedRemove` alone it is in the order of the keys, the items of one key leave it
in the order they came, and the next `SortedRemove` returns an item with the least
key. No call goes wrong: it succeeds at any address not in use, with as many rounds
as there are elements. -/
theorem list_faithful (run : Run step new es s) (k : Nat) :
    ∃ cells, (s.list k).Holds s.heap cells ∧
      entries cells = ListOp.sequence (opsOn k es) [] ∧
      ((s.list k).first = none ↔ cells = []) ∧ ((s.list k).last = none ↔ cells = []) ∧
      s.returned k = ListOp.outputs (opsOn k es) [] ∧
      ((∀ op ∈ opsOn k es, op.Sorted) → KeySorted (entries cells) ∧
        (∀ key, (ListOp.taken (s.returned k) ++ entries cells).filter (fun x => x.1 = key) =
          (ListOp.inserted (opsOn k es)).filter fun x => x.1 = key) ∧
        ∀ x rest, entries cells = x :: rest → (∀ y ∈ rest, x.1 ≤ y.1) ∧
          ∃ h l, (s.list k).sortedRemove s.heap = .ok ((x.2, some x.1), h, l)) ∧
      ∀ op element fuel, s.heap element = none → cells.length ≤ fuel →
        ∃ s', step s ⟨k, op, element, fuel⟩ = .ok s' := by
  obtain ⟨cells, R, hall⟩ := run_represents run new_represents
  obtain ⟨hseq, hout, -⟩ := hall k
  refine ⟨cells k, R.holds k, hseq, (R.holds k).first_eq_none, (R.holds k).last_eq_none, hout,
    fun hops => ?_, fun op element fuel hfree hfuel => ?_⟩
  · have hsorted : KeySorted (entries (cells k)) := by
      rw [hseq]
      exact ListOp.sequence_keySorted hops List.Pairwise.nil
    refine ⟨hsorted, fun key => ?_, fun x rest hx => ⟨fun y hy => ?_, ?_⟩⟩
    · rw [hout, hseq]
      exact ListOp.stable hops List.Pairwise.nil key
    · rw [hx] at hsorted
      exact hsorted.head_le hy
    · obtain ⟨⟨a, x⟩, rest, hcells, rfl, -⟩ := List.map_eq_cons_iff.mp hx
      obtain ⟨h, l, hcall, -⟩ := (R.holds k).sortedRemove_spec
      rw [hcells] at hcall
      exact ⟨h, l, hcall⟩
  · rcases step_cases R ⟨k, op, element, fuel⟩ with ⟨-, hnot⟩ | ⟨s', _, hok, -⟩
    · exact absurd ⟨hfree, hfuel⟩ hnot
    · exact ⟨s', hok⟩

/-- Three items are put on a list, two of them with the same key, while another list
is used as a queue; the two leave in the order they came. -/
theorem list_faithful_three : ∃ s : ListStore Char,
    Run step new
      [⟨0, .sortedInsert 'a' 5, 3, 3⟩, ⟨1, .append 'x', 7, 0⟩, ⟨0, .sortedInsert 'b' 2, 1, 3⟩,
        ⟨0, .sortedInsert 'c' 2, 4, 3⟩, ⟨0, .sortedRemove, 0, 0⟩, ⟨1, .remove, 0, 0⟩] s ∧
      s.returned 0 = [(some 'b', some 2)] ∧ s.returned 1 = [(some 'x', none)] ∧
      ∃ cells, (s.list 0).Holds s.heap cells ∧ entries cells = [(2, some 'c'), (5, some 'a')] := by
  have run : Run step (new : ListStore Char)
      [⟨0, .sortedInsert 'a' 5, 3, 3⟩, ⟨1, .append 'x', 7, 0⟩, ⟨0, .sortedInsert 'b' 2, 1, 3⟩,
        ⟨0, .sortedInsert 'c' 2, 4, 3⟩, ⟨0, .sortedRemove, 0, 0⟩, ⟨1, .remove, 0, 0⟩] _ :=
    .cons rfl (.cons rfl (.cons rfl (.cons rfl (.cons rfl (.cons rfl .nil)))))
  obtain ⟨cells, hholds, hentries, -⟩ := list_faithful run 0
  exact ⟨_, run, rfl, rfl, cells, hholds, hentries.trans rfl⟩

end ListStore

/-! ## The counter -/

namespace ListOp

/-- By how much the operation puts the number of items ahead of the counter.
`SortedInsert` and `SortedRemove` leave the counter as it is, and `Remove` counts
down before it finds that there is nothing to remove. -/
def ahead : ListOp ι → List (Int × Option ι) → Int
  | append _, _ => 0
  | prepend _, _ => 0
  | remove, xs => if xs.isEmpty then 1 else 0
  | sortedInsert .., _ => 1
  | sortedRemove, xs => if xs.isEmpty then 0 else -1

def drift : List (ListOp ι) → List (Int × Option ι) → Int
  | [], _ => 0
  | op :: ops, xs => op.ahead xs + drift ops (op.apply xs)

variable {xs : List (Int × Option ι)}

theorem counter_eq (op : ListOp ι) (d : Int) : op.counter (.ofInt (xs.length - d)) =
    .ofInt ((op.apply xs).length - (d + op.ahead xs)) := by
  have hup : Int32.ofInt (xs.length - d) + 1 = .ofInt (xs.length - d + 1) := by
    rw [Int32.ofInt_add]
    rfl
  have hdown : Int32.ofInt (xs.length - d) - 1 = .ofInt (xs.length - d - 1) := by
    rw [Int32.ofInt_sub _ 1]
    rfl
  cases op with
  | append item =>
    rw [counter, hup, apply, ahead, List.length_append, List.length_singleton]
    congr 1
    omega
  | prepend item =>
    rw [counter, hup, apply, ahead, List.length_cons]
    congr 1
    omega
  | remove =>
    rw [counter, hdown]
    congr 1
    cases xs with
    | nil => simp [apply, ahead]; omega
    | cons x xs => simp [apply, ahead]; omega
  | sortedInsert item sortKey =>
    rw [counter, apply, ahead, (sortedInsert_perm item sortKey xs).length_eq, List.length_cons]
    congr 1
    omega
  | sortedRemove =>
    rw [counter]
    congr 1
    cases xs with
    | nil => simp [apply, ahead]
    | cons x xs => simp [apply, ahead]; omega

theorem foldl_counter (ops : List (ListOp ι)) (d : Int) :
    ops.foldl (fun size op => op.counter size) (.ofInt (xs.length - d)) =
      .ofInt ((sequence ops xs).length - (d + drift ops xs)) := by
  induction ops generalizing xs d with
  | nil =>
    rw [drift, Int.add_zero]
    rfl
  | cons op ops ih =>
    rw [List.foldl_cons, counter_eq, ih, drift, Int.add_assoc]
    rfl

end ListOp

/-- A counter of 32 bits that is `d` behind. -/
theorem toInt_ofInt_sub_eq_iff (n : Nat) (d : Int) :
    (Int32.ofInt (n - d)).toInt = n ↔ (2 ^ 32 : Int) ∣ d ∧ n < 2 ^ 31 := by
  rw [Int32.toInt_ofInt, Int.bmod_def]
  simp only [Int32.size]
  split <;> omega

namespace ListStore
open LinkedList (entries)
variable {s : ListStore ι} {es : List (Call ι)} {k : Nat}

/-- `getSize` is the number of elements exactly if the number of those that
`SortedInsert` has added and of the calls of `Remove` on the empty list is the number
of those that `SortedRemove` has taken off, as far as an `int` can tell. -/
theorem getSize_exact_iff (run : Run step new es s) (k : Nat) :
    ∃ cells, (s.list k).Holds s.heap cells ∧ ((s.list k).getSize.toInt = cells.length ↔
      (2 ^ 32 : Int) ∣ ListOp.drift (opsOn k es) [] ∧ cells.length < 2 ^ 31) := by
  obtain ⟨cells, R, hall⟩ := run_represents run new_represents
  obtain ⟨hseq, -, hsize⟩ := hall k
  have hzero : ((new : ListStore ι).list k).size =
      .ofInt ((entries ([] : List (Nat × Int × Option ι))).length - 0) := rfl
  rw [hzero, ListOp.foldl_counter, Int.zero_add, ← hseq, List.length_map] at hsize
  refine ⟨cells k, R.holds k, ?_⟩
  rw [LinkedList.getSize, hsize]
  exact toInt_ofInt_sub_eq_iff _ _

/-- With `Append` and `Remove` alone, and one item left. -/
theorem getSize_exact_iff_queue : ∃ s : ListStore Char,
    Run step new [⟨0, .append 'a', 3, 0⟩, ⟨0, .append 'b', 4, 0⟩, ⟨0, .remove, 0, 0⟩] s ∧
      ∃ cells, (s.list 0).Holds s.heap cells ∧ (s.list 0).getSize.toInt = cells.length := by
  have run : Run step (new : ListStore Char)
      [⟨0, .append 'a', 3, 0⟩, ⟨0, .append 'b', 4, 0⟩, ⟨0, .remove, 0, 0⟩] _ :=
    .cons rfl (.cons rfl (.cons rfl .nil))
  obtain ⟨cells, hholds, hiff⟩ := getSize_exact_iff run 0
  have hcells : cells = [(4, 0, some 'b')] := hholds.path.unique ⟨rfl, _, rfl, rfl, rfl⟩
  refine ⟨_, run, cells, hholds, hiff.mpr ⟨⟨0, rfl⟩, ?_⟩⟩
  rw [hcells]
  exact Nat.one_lt_two_pow (Nat.succ_ne_zero 30)

/-- After `Remove` on an empty list the counter is -1; with one item put on by
`SortedInsert` it is 0, and with one put on by `Append` and taken off by
`SortedRemove` it is 1. -/
theorem getSize_wrong : ∃ s₁ s₂ s₃ : ListStore Char,
    (Run step new [⟨0, .remove, 0, 0⟩] s₁ ∧
      (s₁.list 0).getSize = -1 ∧ (s₁.list 0).Holds s₁.heap []) ∧
    (Run step new [⟨0, .sortedInsert 'a' 5, 3, 0⟩] s₂ ∧
      (s₂.list 0).getSize = 0 ∧ (s₂.list 0).Holds s₂.heap [(3, 5, some 'a')]) ∧
    Run step new [⟨0, .append 'a', 3, 0⟩, ⟨0, .sortedRemove, 0, 0⟩] s₃ ∧
      (s₃.list 0).getSize = 1 ∧ (s₃.list 0).Holds s₃.heap [] := by
  refine ⟨_, _, _, ⟨.cons rfl .nil, rfl, rfl, rfl⟩, ⟨.cons rfl .nil, rfl, ?_, rfl⟩,
    .cons rfl (.cons rfl .nil), rfl, rfl, rfl⟩
  exact ⟨rfl, _, rfl, rfl, rfl⟩

end ListStore
end Nachos

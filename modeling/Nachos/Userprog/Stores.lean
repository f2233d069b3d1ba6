import Nachos.Userprog.UserMemory

/-! What becomes of bytes that the kernel stores in user memory one after the
other, through `WriteMem` (translate.cc), without looking at what `WriteMem`
returns. A byte whose page is not in memory is lost: the page fault is handled,
and the next byte is stored. -/

namespace Nachos
open Lib

namespace Kernel

/-! ## Storing one byte after the other -/

/-- The bytes `bs` stored at `addr + num`, `addr + num + 1` and so on, without an
exception. -/
def storeBytes (addr : BitVec 32) (num : Nat) (k : Kernel) : List UInt8 → Except Fault Kernel
  | [] => .ok k
  | b :: bs => do
    let k ← k.store (addr + BitVec.ofNat 32 num) b
    storeBytes addr (num + 1) k bs

/-- `WriteMem` called for the bytes `bs` one after the other, from `addr + num`
on: `stored` are the addresses it has stored at. -/
inductive Writing (random : Nat → Nat) (addr : BitVec 32) :
    Nat → Kernel → List UInt8 → List (BitVec 32) → Kernel → Prop
  | nil {num : Nat} {k : Kernel} : Writing random addr num k [] [] k
  | stored {num : Nat} {k k1 k' : Kernel} {b : UInt8} {bs : List UInt8}
    {stored : List (BitVec 32)} (h : k.store (addr + BitVec.ofNat 32 num) b = .ok k1)
    (rest : Writing random addr (num + 1) k1 bs stored k') :
    Writing random addr num k (b :: bs) ((addr + BitVec.ofNat 32 num) :: stored) k'
  | lost {num : Nat} {k k1 k' : Kernel} {b : UInt8} {bs : List UInt8}
    {stored : List (BitVec 32)} (fault : k.Faults (addr + BitVec.ofNat 32 num))
    (h : k.bringIn (addr + BitVec.ofNat 32 num) (random num) = .ok k1)
    (rest : Writing random addr (num + 1) k1 bs stored k') :
    Writing random addr num k (b :: bs) stored k'

variable {k k' k1 : Kernel} {addr : BitVec 32} {random : Nat → Nat}
  {num : Nat} {bs cs : List UInt8} {b : UInt8} {st st' : List (BitVec 32)}

theorem store_not_faults (h : k.store addr b = .ok k1) : ¬ k.Faults addr := by
  obtain ⟨x, hw⟩ := writable_iff.mpr ⟨k1, h⟩
  exact hw.mapped.not_faults

theorem Writing.unique {k2 : Kernel} (h : Writing random addr num k bs st k')
    (h' : Writing random addr num k bs st' k2) : k2 = k' := by
  induction h generalizing st' with
  | nil =>
    cases h'
    rfl
  | stored h _ ih =>
    cases h' with
    | stored h' rest' =>
      cases h.symm.trans h'
      exact ih rest'
    | lost fault => exact absurd fault (store_not_faults h)
  | lost fault h _ ih =>
    cases h' with
    | stored h' => exact absurd fault (store_not_faults h')
    | lost _ h' rest' =>
      cases h.symm.trans h'
      exact ih rest'

theorem Writing.append {st1 st2 : List (BitVec 32)} (h : Writing random addr num k bs st1 k1)
    (h' : Writing random addr (num + bs.length) k1 cs st2 k') :
    Writing random addr num k (bs ++ cs) (st1 ++ st2) k' := by
  induction h with
  | nil => exact h'
  | @stored num _ _ _ _ bs _ h _ ih =>
    rw [List.length_cons, ← Nat.add_assoc, Nat.add_right_comm] at h'
    exact .stored h (ih h')
  | @lost num _ _ _ _ bs _ fault h _ ih =>
    rw [List.length_cons, ← Nat.add_assoc, Nat.add_right_comm] at h'
    exact .lost fault h (ih h')

theorem Writing.range (h : Writing random addr num k bs st k') {a : BitVec 32} (ha : a ∈ st) :
    ∃ i < bs.length, a = addr + BitVec.ofNat 32 (num + i) := by
  induction h with
  | nil => cases ha
  | @stored num _ _ _ _ bs _ _ _ ih =>
    rcases List.mem_cons.mp ha with rfl | ha
    · exact ⟨0, Nat.succ_pos _, rfl⟩
    · obtain ⟨i, hi, rfl⟩ := ih ha
      exact ⟨i + 1, Nat.succ_lt_succ hi, by rw [Nat.add_assoc, Nat.add_comm 1]⟩
  | @lost num _ _ _ _ bs _ _ _ _ ih =>
    obtain ⟨i, hi, rfl⟩ := ih ha
    exact ⟨i + 1, Nat.succ_lt_succ hi, by rw [Nat.add_assoc, Nat.add_comm 1]⟩

theorem writing_singleton : Writing random addr num k [b] st k' ↔
    k.store (addr + BitVec.ofNat 32 num) b = .ok k' ∧ st = [addr + BitVec.ofNat 32 num] ∨
      k.Faults (addr + BitVec.ofNat 32 num) ∧
        k.bringIn (addr + BitVec.ofNat 32 num) (random num) = .ok k' ∧ st = [] := by
  constructor
  · intro h
    cases h with
    | stored h rest =>
      cases rest
      exact .inl ⟨h, rfl⟩
    | lost fault h rest =>
      cases rest
      exact .inr ⟨fault, h, rfl⟩
  · intro h
    rcases h with ⟨h, rfl⟩ | ⟨fault, h, rfl⟩
    · exact .stored h .nil
    · exact .lost fault h .nil

theorem writing_cons : Writing random addr num k (b :: bs) st k' ↔
    ∃ st1 k1 st2, Writing random addr num k [b] st1 k1 ∧
      Writing random addr (num + 1) k1 bs st2 k' ∧ st = st1 ++ st2 := by
  constructor
  · intro h
    cases h with
    | stored h rest => exact ⟨_, _, _, .stored h .nil, rest, rfl⟩
    | lost fault h rest => exact ⟨_, _, _, .lost fault h .nil, rest, rfl⟩
  · intro ⟨st1, k1, st2, hfirst, hrest, hst⟩
    rw [hst]
    exact hfirst.append hrest

theorem Writing.of_append (h : Writing random addr num k (bs ++ cs) st k') :
    ∃ st1 k1 st2, Writing random addr num k bs st1 k1 ∧
      Writing random addr (num + bs.length) k1 cs st2 k' ∧ st = st1 ++ st2 := by
  induction bs generalizing num k st with
  | nil => exact ⟨[], k, st, .nil, h, rfl⟩
  | cons b bs ih =>
    obtain ⟨st1, k1, st2, hfirst, hrest, rfl⟩ := writing_cons.mp h
    obtain ⟨st3, k2, st4, hbytes, hlast, rfl⟩ := ih hrest
    refine ⟨st1 ++ st3, k2, st4, writing_cons.mpr ⟨st1, k1, st3, hfirst, hbytes, rfl⟩, ?_,
      (List.append_assoc _ _ _).symm⟩
    rwa [List.length_cons, ← Nat.add_assoc, Nat.add_right_comm]

theorem writing_of_storeBytes (h : storeBytes addr num k bs = .ok k') :
    ∃ st, Writing random addr num k bs st k' := by
  induction bs generalizing num k with
  | nil =>
    cases h
    exact ⟨[], .nil⟩
  | cons b bs ih =>
    obtain ⟨k1, hstore, h⟩ := bind_eq_ok.mp h
    obtain ⟨st, hrest⟩ := ih h
    exact ⟨_, .stored hstore hrest⟩

/-- Either all of `bs` is stored, or one of its bytes is lost, and then it does
not matter which byte it was. -/
theorem Writing.split (h : Writing random addr num k (bs ++ cs) st k') :
    (∃ k1 st1, storeBytes addr num k bs = .ok k1 ∧
        Writing random addr (num + bs.length) k1 cs st1 k' ∧ ∀ a ∈ st1, a ∈ st) ∨
      ∃ i < bs.length, ∀ b, Writing random addr num k (bs.set i b ++ cs) st k' := by
  induction bs generalizing num k st with
  | nil => exact .inl ⟨k, st, rfl, h, fun _ ha => ha⟩
  | cons b bs ih =>
    cases h with
    | stored hstore rest =>
      rcases ih rest with ⟨k2, st2, hbytes, hrest, hsub⟩ | ⟨i, hi, hany⟩
      · refine .inl ⟨k2, st2, bind_eq_ok.mpr ⟨_, hstore, hbytes⟩, ?_,
          fun a ha => List.mem_cons_of_mem _ (hsub a ha)⟩
        rwa [List.length_cons, ← Nat.add_assoc, Nat.add_right_comm]
      · exact .inr ⟨i + 1, Nat.succ_lt_succ hi, fun b => .stored hstore (hany b)⟩
    | lost fault hin rest => exact .inr ⟨0, Nat.succ_pos _, fun b => .lost fault hin rest⟩

theorem storeBytes_sameMap (h : storeBytes addr num k bs = .ok k') : SameMap k k' := by
  induction bs generalizing num k with
  | nil =>
    cases h
    exact .refl _
  | cons b bs ih =>
    obtain ⟨k1, hstore, h⟩ := bind_eq_ok.mp h
    exact (store_sameMap hstore).trans (ih h)

theorem storeBytes_ok_iff : (∃ k', storeBytes addr num k bs = .ok k') ↔
    ∀ i < bs.length, ∃ x, k.Writable (addr + BitVec.ofNat 32 (num + i)) x := by
  induction bs generalizing num k with
  | nil => exact ⟨fun _ _ hi => absurd hi (Nat.not_lt_zero _), fun _ => ⟨k, rfl⟩⟩
  | cons b bs ih =>
    have hshift (i : Nat) : num + 1 + i = num + (i + 1) := by omega
    constructor
    · intro ⟨k', h⟩
      obtain ⟨k1, hstore, h⟩ := bind_eq_ok.mp h
      intro i hi
      cases i with
      | zero => exact writable_iff.mpr ⟨k1, hstore⟩
      | succ i =>
        obtain ⟨x, hx⟩ := ih.mp ⟨k', h⟩ i (Nat.lt_of_succ_lt_succ hi)
        rw [hshift] at hx
        exact ⟨x, ((store_sameMap hstore).writable _ _).mp hx⟩
    · intro h
      obtain ⟨k1, hstore⟩ := writable_iff.mp (h 0 (Nat.succ_pos _))
      obtain ⟨k', hrest⟩ := ih.mpr fun i hi => by
        obtain ⟨x, hx⟩ := h (i + 1) (Nat.succ_lt_succ hi)
        rw [hshift]
        exact ⟨x, ((store_sameMap hstore).writable _ _).mpr hx⟩
      exact ⟨k', bind_eq_ok.mpr ⟨k1, hstore, hrest⟩⟩

/-- Bytes elsewhere stay as they are. -/
theorem storeBytes_elsewhere {x : Nat → Nat} {y : Nat} (h : storeBytes addr num k bs = .ok k')
    (hx : ∀ i < bs.length, k.Writable (addr + BitVec.ofNat 32 (num + i)) (x (num + i)) ∧
      x (num + i) ≠ y) : k'.mainMemory y = k.mainMemory y := by
  induction bs generalizing num k with
  | nil =>
    cases h
    rfl
  | cons b bs ih =>
    obtain ⟨k1, hstore, h⟩ := bind_eq_ok.mp h
    obtain ⟨hw, hne⟩ := hx 0 (Nat.succ_pos _)
    have hrest := ih h fun i hi => by
      obtain ⟨hw, hne⟩ := hx (i + 1) (Nat.succ_lt_succ hi)
      rw [show num + 1 + i = num + (i + 1) by omega]
      exact ⟨((store_sameMap hstore).writable _ _).mpr hw, hne⟩
    rw [hrest, store_memory hstore hw, Function.update_of_ne (Ne.symm hne)]

/-- Bytes stored at different places are all there in the end. -/
theorem storeBytes_memory {x : Nat → Nat} (h : storeBytes addr num k bs = .ok k')
    (hx : ∀ i < bs.length, k.Writable (addr + BitVec.ofNat 32 (num + i)) (x (num + i)))
    (hinj : ∀ i < bs.length, ∀ j < i, x (num + i) ≠ x (num + j)) (i : Nat) (b : UInt8)
    (hb : bs[i]? = some b) : k'.mainMemory (x (num + i)) = b := by
  induction bs generalizing num k i with
  | nil => cases hb
  | cons b0 bs ih =>
    obtain ⟨k1, hstore, htail⟩ := bind_eq_ok.mp h
    have hshift (i : Nat) : num + 1 + i = num + (i + 1) := by omega
    have hx' (i : Nat) (hi : i < bs.length) :
        k1.Writable (addr + BitVec.ofNat 32 (num + 1 + i)) (x (num + 1 + i)) := by
      rw [hshift]
      exact ((store_sameMap hstore).writable _ _).mpr (hx (i + 1) (Nat.succ_lt_succ hi))
    cases i with
    | zero =>
      cases hb
      rw [storeBytes_elsewhere htail fun i hi => ⟨hx' i hi, by
        rw [hshift]
        exact hinj (i + 1) (Nat.succ_lt_succ hi) 0 (Nat.succ_pos i)⟩]
      rw [store_memory hstore (hx 0 (Nat.succ_pos _)), Function.update_self]
    | succ i =>
      rw [← hshift]
      refine ih htail hx' (fun i hi j hj => ?_) i hb
      rw [hshift, hshift]
      exact hinj (i + 1) (Nat.succ_lt_succ hi) (j + 1) (Nat.succ_lt_succ hj)

/-! ## When the bytes arrive -/

/-- The string `p`, stored with its NUL, arrives in a buffer of `size` bytes. -/
def Arrives (k : Kernel) (random : Nat → Nat) (addr : BitVec 32) (size : Int) (p : List UInt8) :
    Prop :=
  ∃ st k', Writing random addr 0 k (p ++ [0]) st k' ∧ k'.UserBytes addr p ∧
    ∀ a ∈ st, ∃ i : Nat, i < size ∧ a = addr + BitVec.ofNat 32 i

/-- The `m` bytes from `addr` on are in memory and may be written, and no two of
them are at the same place. -/
def HasRoom (k : Kernel) (addr : BitVec 32) (m : Nat) : Prop :=
  ∃ x : Nat → Nat, (∀ i < m, k.Writable (addr + BitVec.ofNat 32 i) (x i)) ∧
    ∀ i < m, ∀ j < i, x i ≠ x j

/-- The buffer takes `m` bytes and a NUL. Either there is room for all of them in
memory; or only the NUL is in a page that is not, and the page fault, which
drops the NUL, leaves the user the `m` bytes. The bytes are among those that are
`ok`. -/
def Takes (k : Kernel) (ok : UInt8 → Prop) (random : Nat → Nat) (addr : BitVec 32) (size : Int)
    (m : Nat) : Prop :=
  m < size ∧ k.HasRoom addr (m + 1) ∨
    m ≤ size ∧ (∀ i < m, ∃ x, k.Writable (addr + BitVec.ofNat 32 i) x) ∧
      k.Faults (addr + BitVec.ofNat 32 m) ∧
      ∀ p : List UInt8, p.length = m → (∀ b ∈ p, ok b) → ∀ k1, storeBytes addr 0 k p = .ok k1 →
        ∃ k2, k1.bringIn (addr + BitVec.ofNat 32 m) (random m) = .ok k2 ∧ k2.UserBytes addr p

theorem userBytes_iff_memory {x : Nat → Nat}
    (hx : ∀ i < bs.length, k.Mapped (addr + BitVec.ofNat 32 i) (x i)) :
    k.UserBytes addr bs ↔ ∀ i b, bs[i]? = some b → k.mainMemory (x i) = b := by
  constructor
  · intro h i b hb
    exact (hx i (List.getElem?_eq_some_iff.mp hb).1).userByte_iff.mp (h i b hb)
  · intro h i b hb
    exact (hx i (List.getElem?_eq_some_iff.mp hb).1).userByte_iff.mpr (h i b hb)

theorem UserBytes.of_append (h : k.UserBytes addr (bs ++ cs)) : k.UserBytes addr bs := by
  intro i b hb
  refine h i b ?_
  rw [List.getElem?_append_left (List.getElem?_eq_some_iff.mp hb).1, hb]

theorem HasRoom.stores (h : k.HasRoom addr bs.length) :
    ∃ k', storeBytes addr 0 k bs = .ok k' ∧ k'.UserBytes addr bs := by
  obtain ⟨x, hx, hinj⟩ := h
  have hx0 (i : Nat) (hi : i < bs.length) :
      k.Writable (addr + BitVec.ofNat 32 (0 + i)) (x (0 + i)) := by
    rw [Nat.zero_add]
    exact hx i hi
  obtain ⟨k', hbytes⟩ := storeBytes_ok_iff.mpr fun i hi => ⟨_, hx0 i hi⟩
  refine ⟨k', hbytes, (userBytes_iff_memory (x := x) fun i hi => ?_).mpr fun i b hb => ?_⟩
  · exact ((storeBytes_sameMap hbytes).mapped _ _).mpr (hx i hi).mapped
  · have hmem := storeBytes_memory hbytes hx0
      (fun i hi j hj => by rw [Nat.zero_add, Nat.zero_add]; exact hinj i hi j hj) i b hb
    rwa [Nat.zero_add] at hmem

section
variable {ok : UInt8 → Prop} (h97 : ok 97) (h98 : ok 98) {m : Nat}
include h97 h98

/-- A list of `m` bytes that differ at `i` and elsewhere. -/
theorem exists_distinct {i j : Nat} (hi : i < m) (hj : j < i) : ∃ p : List UInt8, p.length = m ∧
    (∀ b ∈ p, ok b) ∧ p[i]? = some 97 ∧ p[j]? = some 98 := by
  refine ⟨(List.replicate m 98).set i 97, by simp, fun b hb => ?_, by simp [hi], ?_⟩
  · rcases List.mem_or_eq_of_mem_set hb with hb | rfl
    · rw [List.eq_of_mem_replicate hb]
      exact h98
    · exact h97
  · rw [List.getElem?_set_ne (Nat.ne_of_gt hj)]
    simp [Nat.lt_trans hj hi]

/-- If all bytes arrive whatever they are, none of them is lost on the way. -/
theorem stored_of_userBytes (cs : List UInt8)
    (H : ∀ p : List UInt8, p.length = m → (∀ b ∈ p, ok b) →
      ∃ st k', Writing random addr 0 k (p ++ cs) st k' ∧ k'.UserBytes addr p)
    {p : List UInt8} (hlen : p.length = m) (hok : ∀ b ∈ p, ok b)
    (h : Writing random addr 0 k (p ++ cs) st k') (huser : k'.UserBytes addr p) :
    ∃ k1 st1, storeBytes addr 0 k p = .ok k1 ∧ Writing random addr m k1 cs st1 k' ∧
      ∀ a ∈ st1, a ∈ st := by
  rcases h.split with ⟨k1, st1, hbytes, hrest, hsub⟩ | ⟨i, hi, hany⟩
  · rw [Nat.zero_add, hlen] at hrest
    exact ⟨k1, st1, hbytes, hrest, hsub⟩
  · -- with another byte at `i` the call would end in the same state
    obtain ⟨b, hb, hne⟩ : ∃ b, ok b ∧ b ≠ p[i] := by
      by_cases h : p[i] = 97
      · exact ⟨98, h98, by rw [h]; decide⟩
      · exact ⟨97, h97, Ne.symm h⟩
    obtain ⟨st2, k2, hwrite, huser2⟩ := H (p.set i b) (by rw [List.length_set, hlen]) fun c hc => by
      rcases List.mem_or_eq_of_mem_set hc with hc | rfl
      · exact hok c hc
      · exact hb
    rw [(hany b).unique hwrite] at huser2
    have hold := huser i p[i] (List.getElem?_eq_getElem hi)
    have hnew := huser2 i b (List.getElem?_set_self hi)
    exact absurd (hnew.unique hold) hne

theorem places_distinct {x : Nat → Nat}
    (hx : ∀ i < m, k.Writable (addr + BitVec.ofNat 32 i) (x i))
    (H : ∀ p : List UInt8, p.length = m → (∀ b ∈ p, ok b) →
      ∃ k', SameMap k k' ∧ k'.UserBytes addr p) : ∀ i < m, ∀ j < i, x i ≠ x j := by
  intro i hi j hj heq
  obtain ⟨p, hlen, hok, hpi, hpj⟩ := exists_distinct h97 h98 hi hj
  obtain ⟨k', hmap, huser⟩ := H p hlen hok
  have hmem := (userBytes_iff_memory (x := x) fun i hi =>
    (hmap.mapped _ _).mpr (hx i (hlen ▸ hi)).mapped).mp huser
  have := (hmem i 97 hpi).symm.trans ((congrArg k'.mainMemory heq).trans (hmem j 98 hpj))
  exact absurd this (by decide)

/-- Bytes with no NUL behind them. -/
theorem arrives_iff :
    (∀ p : List UInt8, p.length = m → (∀ b ∈ p, ok b) →
      ∃ st k', Writing random addr 0 k p st k' ∧ k'.UserBytes addr p) ↔ k.HasRoom addr m := by
  constructor
  · intro H
    have H' (p : List UInt8) (hlen : p.length = m) (hok : ∀ b ∈ p, ok b) :
        ∃ k1, storeBytes addr 0 k p = .ok k1 ∧ k1.UserBytes addr p := by
      obtain ⟨st, k', hwrite, huser⟩ := H p hlen hok
      obtain ⟨k1, st1, hbytes, hrest, -⟩ := stored_of_userBytes h97 h98 []
        (by simpa using H) hlen hok (by simpa using hwrite) huser
      cases hrest
      exact ⟨k', hbytes, huser⟩
    obtain ⟨k1, hbytes, -⟩ := H' (List.replicate m 97) List.length_replicate
      (fun b hb => List.eq_of_mem_replicate hb ▸ h97)
    have hw := storeBytes_ok_iff.mp ⟨k1, hbytes⟩
    simp only [List.length_replicate, Nat.zero_add] at hw
    choose! x hx using hw
    refine ⟨x, hx, places_distinct h97 h98 hx fun p hlen hok => ?_⟩
    obtain ⟨k1, hbytes, huser⟩ := H' p hlen hok
    exact ⟨k1, storeBytes_sameMap hbytes, huser⟩
  · intro hroom p hlen _
    obtain ⟨k', hbytes, huser⟩ := HasRoom.stores (hlen ▸ hroom)
    obtain ⟨st, hwrite⟩ := writing_of_storeBytes hbytes
    exact ⟨st, k', hwrite, huser⟩

theorem stored_before_nul {size : Int}
    (H : ∀ p : List UInt8, p.length = m → (∀ b ∈ p, ok b) →
      m ≤ size ∧ k.Arrives random addr size p)
    {p : List UInt8} (hlen : p.length = m) (hok : ∀ b ∈ p, ok b) :
    ∃ k1 st k', storeBytes addr 0 k p = .ok k1 ∧ Writing random addr m k1 [0] st k' ∧
      k'.UserBytes addr p ∧ ∀ a ∈ st, ∃ i : Nat, i < size ∧ a = addr + BitVec.ofNat 32 i := by
  obtain ⟨-, st, k', hwrite, huser, hrange⟩ := H p hlen hok
  obtain ⟨k1, st1, hbytes, hrest, hsub⟩ := stored_of_userBytes h97 h98 [0]
    (fun p hlen hok => by
      obtain ⟨-, st, k', hwrite, huser, -⟩ := H p hlen hok
      exact ⟨st, k', hwrite, huser⟩) hlen hok hwrite huser
  exact ⟨k1, st1, k', hbytes, hrest, huser, fun a ha => hrange a (hsub a ha)⟩

/-- A NUL that is stored has a place apart from the bytes before it. -/
theorem hasRoom_succ
    (H : ∀ p : List UInt8, p.length = m → (∀ b ∈ p, ok b) → ∃ k1 k',
      storeBytes addr 0 k p = .ok k1 ∧ k1.store (addr + BitVec.ofNat 32 m) 0 = .ok k' ∧
        k'.UserBytes addr p) : k.HasRoom addr (m + 1) := by
  obtain ⟨k1, k', hbytes, hstore, huser⟩ := H (List.replicate m 97) List.length_replicate
    (fun b hb => List.eq_of_mem_replicate hb ▸ h97)
  have hmap := storeBytes_sameMap hbytes
  have hw (i : Nat) (hi : i < m + 1) : ∃ x, k.Writable (addr + BitVec.ofNat 32 i) x := by
    rcases Nat.lt_succ_iff_lt_or_eq.mp hi with hi | rfl
    · have hw := storeBytes_ok_iff.mp ⟨k1, hbytes⟩ i (by rwa [List.length_replicate])
      rwa [Nat.zero_add] at hw
    · obtain ⟨y, hy⟩ := writable_iff.mpr ⟨_, hstore⟩
      exact ⟨y, (hmap.writable _ _).mp hy⟩
  choose! x hx using hw
  refine ⟨x, hx, fun i hi j hj => ?_⟩
  rcases Nat.lt_succ_iff_lt_or_eq.mp hi with hi | rfl
  · refine places_distinct h97 h98 (fun i hi => hx i (Nat.lt_succ_of_lt hi))
      (fun p hlen hok => ?_) i hi j hj
    obtain ⟨k2, k3, hbytes2, hstore2, huser2⟩ := H p hlen hok
    exact ⟨k3, (storeBytes_sameMap hbytes2).trans (store_sameMap hstore2), huser2⟩
  · intro heq
    have hwm := (hmap.writable _ _).mpr (hx i (Nat.lt_succ_self i))
    have hxj := hx j (Nat.lt_succ_of_lt hj)
    have hbyte := ((hmap.trans (store_sameMap hstore)).mapped _ _).mpr hxj.mapped
    have hfirst := hbyte.userByte_iff.mp (huser j 97 (by simp [hj]))
    rw [store_memory hstore hwm, heq, Function.update_self] at hfirst
    cases hfirst

theorem takes_of_arrives {size : Int} (hsize : size < 4294967296)
    (H : ∀ p : List UInt8, p.length = m → (∀ b ∈ p, ok b) →
      m ≤ size ∧ k.Arrives random addr size p) : k.Takes ok random addr size m := by
  have hletters : ∀ b ∈ List.replicate m (97 : UInt8), ok b :=
    fun b hb => List.eq_of_mem_replicate hb ▸ h97
  obtain ⟨hm, -⟩ := H _ List.length_replicate hletters
  obtain ⟨k1, st1, k', hbytes, hnul, huser, hrange⟩ :=
    stored_before_nul h97 h98 H List.length_replicate hletters
  by_cases hfault : k.Faults (addr + BitVec.ofNat 32 m)
  · -- the NUL is lost, and the page fault must leave the rest
    have hw := storeBytes_ok_iff.mp ⟨k1, hbytes⟩
    simp only [List.length_replicate, Nat.zero_add] at hw
    refine .inr ⟨hm, hw, hfault, fun p hlen hok k2 hbytes2 => ?_⟩
    obtain ⟨k3, st3, k4, hbytes3, hnul3, huser3, -⟩ := stored_before_nul h97 h98 H hlen hok
    cases hbytes2.symm.trans hbytes3
    rcases writing_singleton.mp hnul3 with ⟨hstore, -⟩ | ⟨-, hin, -⟩
    · exact absurd ((storeBytes_sameMap hbytes2).faults hfault) (store_not_faults hstore)
    · exact ⟨k4, hin, huser3⟩
  · -- the NUL is stored, so it has to be in the buffer
    have hstored {k2 k3 : Kernel} {st2 : List (BitVec 32)} (hmap2 : SameMap k k2)
        (h : Writing random addr m k2 [0] st2 k3) :
        k2.store (addr + BitVec.ofNat 32 m) 0 = .ok k3 ∧ st2 = [addr + BitVec.ofNat 32 m] :=
      (writing_singleton.mp h).resolve_right fun h => hfault (hmap2.symm.faults h.1)
    obtain ⟨-, rfl⟩ := hstored (storeBytes_sameMap hbytes) hnul
    obtain ⟨i, hi, heq⟩ := hrange _ List.mem_cons_self
    obtain rfl := offset_inj (by omega) (by omega) heq
    refine .inl ⟨hi, hasRoom_succ h97 h98 fun p hlen hok => ?_⟩
    obtain ⟨k2, st2, k3, hbytes2, hnul2, huser2, -⟩ := stored_before_nul h97 h98 H hlen hok
    exact ⟨k2, k3, hbytes2, (hstored (storeBytes_sameMap hbytes2) hnul2).1, huser2⟩

omit h97 h98 in
theorem Takes.arrives {size : Int} (h : k.Takes ok random addr size m) {p : List UInt8}
    (hlen : p.length = m) (hok : ∀ b ∈ p, ok b) : m ≤ size ∧ k.Arrives random addr size p := by
  rcases h with ⟨hlt, hroom⟩ | ⟨hm, hw, hfault, hkeep⟩
  · obtain ⟨k', hbytes, huser⟩ : ∃ k', storeBytes addr 0 k (p ++ [0]) = .ok k' ∧
        k'.UserBytes addr (p ++ [0]) :=
      HasRoom.stores (by rwa [List.length_append, List.length_singleton, hlen])
    obtain ⟨st, hwrite⟩ := writing_of_storeBytes hbytes
    refine ⟨Int.le_of_lt hlt, st, k', hwrite, huser.of_append, fun a ha => ?_⟩
    obtain ⟨i, hi, rfl⟩ := hwrite.range ha
    rw [List.length_append, List.length_singleton, hlen] at hi
    exact ⟨i, by omega, by rw [Nat.zero_add]⟩
  · obtain ⟨k1, hbytes⟩ : ∃ k1, storeBytes addr 0 k p = .ok k1 :=
      storeBytes_ok_iff.mpr fun i hi => by
        rw [Nat.zero_add]
        exact hw i (hlen ▸ hi)
    obtain ⟨k2, hin, huser⟩ := hkeep p hlen hok k1 hbytes
    obtain ⟨st, hwrite⟩ := @writing_of_storeBytes k k1 addr random 0 p hbytes
    have hnul : Writing random addr (0 + p.length) k1 [0] [] k2 := by
      rw [Nat.zero_add, hlen]
      exact .lost ((storeBytes_sameMap hbytes).faults hfault) hin .nil
    refine ⟨hm, _, k2, hwrite.append hnul, huser, fun a ha => ?_⟩
    rw [List.append_nil] at ha
    obtain ⟨i, hi, rfl⟩ := hwrite.range ha
    exact ⟨i, by omega, by rw [Nat.zero_add]⟩

/-- Bytes with a NUL behind them. -/
theorem takes_iff {size : Int} (hsize : size < 4294967296) :
    (∀ p : List UInt8, p.length = m → (∀ b ∈ p, ok b) → m ≤ size ∧ k.Arrives random addr size p) ↔
      k.Takes ok random addr size m :=
  ⟨takes_of_arrives h97 h98 hsize, fun h _ hlen hok => h.arrives hlen hok⟩

end

end Kernel
end Nachos

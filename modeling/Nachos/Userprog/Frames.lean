import Nachos.Lib.Ownership
import Nachos.Userprog.Effects

/-! What the frame tables are for. `FrameTable` forgets everything of the kernel
but the four structures that record who has which frame, and the faults that are
suspended with a frame in hand; `FrameTable.Step` lists what may happen to them.
Each step takes a frame, passes it on or gives frames back, so that a marked
frame always has exactly one holder. -/

namespace Nachos
open Lib

/-- Where a page is, by its page table entry and its `swapped` flag. -/
structure Place where
  frame : Int
  valid : Bool
  swapped : Bool
  deriving DecidableEq, Repr

def Place.Out (p : Place) : Prop := p.frame = -1 ∧ p.valid = false

def Place.In (p : Place) (f : Nat) : Prop := p.frame = f ∧ p.valid = true

theorem Place.In.not_out {p : Place} {f : Nat} (h : p.In f) : ¬ p.Out := by
  rintro ⟨-, hv⟩
  rw [h.2] at hv
  cases hv

theorem Place.Out.frame_ne {p : Place} (h : p.Out) (f : Nat) : p.frame ≠ f := by
  rw [h.1]
  omega

/-- Who can hold a frame: a page that is mapped to it, or a fault that has
chosen it and not mapped it yet. -/
inductive Holder
  | page (s : SpacePtr) (v : Nat)
  | fault (t : ThreadPtr)
  deriving DecidableEq

@[ext] structure FrameTable where
  home : ThreadPtr → Option SpacePtr
  place : SpacePtr → Nat → Option Place
  -- the page a suspended fault is for, and the frame it has chosen
  hand : ThreadPtr → Option (Int × Nat)
  marked : Nat → Bool
  ipt : Nat → Option ThreadPtr
  fifo : Bool
  pageList : List Nat

namespace FrameTable

def setPlace (F : FrameTable) (s : SpacePtr) (v : Nat) (p : Place) : FrameTable :=
  { F with place := Function.update F.place s (Function.update (F.place s) v (some p)) }

/-- The fault of `t` for page `v` takes the free frame `f`. -/
def take (F : FrameTable) (t : ThreadPtr) (v : Int) (f : Nat) : FrameTable :=
  { F with marked := Function.update F.marked f true
           hand := Function.update F.hand t (some (v, f))
           pageList := if F.fifo then F.pageList ++ [f] else F.pageList }

/-- The fault of `t` for page `v` takes frame `f` from page `v'` of space `s'`. -/
def evict (F : FrameTable) (t : ThreadPtr) (v : Int) (f : Nat) (s' : SpacePtr) (v' : Nat) :
    FrameTable :=
  { F.setPlace s' v' ⟨-1, false, false⟩ with
    hand := Function.update F.hand t (some (v, f))
    pageList := if F.fifo then F.pageList.tail ++ [f] else F.pageList }

/-- The fault of `t` maps its page, of space `s`, to the frame in hand. -/
def fill (F : FrameTable) (t : ThreadPtr) (s : SpacePtr) (v : Int) (f : Nat) (swapped : Bool) :
    FrameTable :=
  { F.setPlace s v.toNat ⟨f, true, swapped⟩ with
    hand := Function.update F.hand t none
    ipt := Function.update F.ipt f (some t) }

def build (F : FrameTable) (t : ThreadPtr) (s : SpacePtr) (pages : Nat → Option Place) :
    FrameTable :=
  { F with home := Function.update F.home t (some s), place := Function.update F.place s pages }

def remove (F : FrameTable) (t : ThreadPtr) (s : SpacePtr) (marked : Nat → Bool) : FrameTable :=
  { F with home := Function.update F.home t none
           place := Function.update F.place s fun _ => none
           marked := marked }

/-- What may happen to the frame tables; `clear` says that the `swapped` flags
of a new space are. -/
inductive Step (clear : Prop) : FrameTable → FrameTable → Prop
  | take {F t s v p} {f : Nat} (home : F.home t = some s) (empty : F.hand t = none) (nonneg : 0 ≤ v)
    (page : F.place s v.toNat = some p) (out : p.Out) (frame : f < numPhysPages)
    (free : F.marked f = false) : Step clear F (F.take t v f)
  | evict {F t s v s' v'} {f : Nat} {p p' : Place} (home : F.home t = some s)
    (empty : F.hand t = none) (nonneg : 0 ≤ v) (page : F.place s v.toNat = some p) (out : p.Out)
    (victim : F.place s' v' = some p') (mapped : p'.frame = f)
    (front : F.fifo = true → f = F.pageList.headD 0) : Step clear F (F.evict t v f s' v')
  | fill {F t s v f p} (home : F.home t = some s) (holds : F.hand t = some (v, f))
    (page : F.place s v.toNat = some p) : Step clear F (F.fill t s v f p.swapped)
  | build {F t s pages} (newThread : F.home t = none) (newSpace : ∀ t', F.home t' ≠ some s)
    (unused : ∀ v, F.place s v = none) (out : ∀ v p, pages v = some p → p.Out)
    (unset : clear → ∀ v p, pages v = some p → p.swapped = false) :
    Step clear F (F.build t s pages)
  | remove {F t s marked} (home : F.home t = some s) (empty : F.hand t = none)
    (cleared : ∀ f : Nat, marked f = true ↔ F.marked f = true ∧
      ∀ v (p : Place), F.place s v = some p → p.frame ≠ f) : Step clear F (F.remove t s marked)

def Holds (F : FrameTable) (f : Nat) : Holder → Prop
  | .page s v => ∃ p, F.place s v = some p ∧ p.frame = f
  | .fault t => ∃ v, F.hand t = some (v, f)

/-- Every frame has at most one holder, and a mark if it has one. A mapped page
is valid, and its frame's entry in `ipt` leads back to its space; what a
suspended fault is for is not in memory; the FIFO list, where there is one,
misses no frame in use. -/
structure Inv (F : FrameTable) : Prop where
  own : Exclusive F.Holds fun f => F.marked f = true
  range : ∀ {f}, F.marked f = true → f < numPhysPages
  homes : ∀ {t t' s}, F.home t = some s → F.home t' = some s → t = t'
  places : ∀ {s v p}, F.place s v = some p → p.Out ∨ ∃ f : Nat, p.In f
  owner : ∀ {s v p f}, F.place s v = some p → p.In f → ∃ t, F.ipt f = some t ∧ F.home t = some s
  hands : ∀ {t v f}, F.hand t = some (v, f) →
    ∃ s p, F.home t = some s ∧ 0 ≤ v ∧ F.place s v.toNat = some p ∧ p.Out
  listed : F.fifo = true → ∀ {f}, F.marked f = true → f ∈ F.pageList
  listRange : ∀ {f}, f ∈ F.pageList → f < numPhysPages

/-- No page is to be read back from swap. -/
def Unswapped (F : FrameTable) : Prop := ∀ {s v p}, F.place s v = some p → p.swapped = false

variable {clear : Prop} {F F' : FrameTable} {t : ThreadPtr} {s : SpacePtr} {v f : Nat} {p : Place}

theorem setPlace_place (F : FrameTable) (s s' : SpacePtr) (v v' : Nat) (p : Place) :
    (F.setPlace s v p).place s' v' = if s' = s ∧ v' = v then some p else F.place s' v' := by
  simp only [setPlace, Function.update_apply]
  by_cases hs : s' = s
  · subst hs
    simp [Function.update_apply]
  · simp [hs]

theorem evict_place (F : FrameTable) (t : ThreadPtr) (w : Int) (f : Nat) (s s' : SpacePtr)
    (v v' : Nat) : (F.evict t w f s v).place s' v' =
      if s' = s ∧ v' = v then some ⟨-1, false, false⟩ else F.place s' v' :=
  F.setPlace_place s s' v v' _

theorem fill_place (F : FrameTable) (t : ThreadPtr) (w : Int) (f : Nat) (b : Bool)
    (s s' : SpacePtr) (v' : Nat) : (F.fill t s w f b).place s' v' =
      if s' = s ∧ v' = w.toNat then some ⟨f, true, b⟩ else F.place s' v' :=
  F.setPlace_place s s' w.toNat v' _

theorem Inv.in_of_frame (hF : F.Inv) (h : F.place s v = some p) (hf : p.frame = f) : p.In f := by
  rcases hF.places h with ho | ⟨g, hg⟩
  · exact absurd hf (ho.frame_ne f)
  · have : g = f := by
      have := hg.1.symm.trans hf
      exact_mod_cast this
    exact this ▸ hg

theorem Inv.marked_of_holds {h : Holder} (hF : F.Inv) (hh : F.Holds f h) : F.marked f = true :=
  (hF.own.marked_iff f).mpr ⟨h, hh⟩

theorem holds_setPlace_self (F : FrameTable) (s : SpacePtr) (v g : Nat) (p : Place) :
    (F.setPlace s v p).Holds g (.page s v) ↔ p.frame = g := by
  simp [Holds, setPlace_place]

theorem holds_setPlace_of_ne {h : Holder} (hne : h ≠ .page s v) (p : Place) (g : Nat) :
    (F.setPlace s v p).Holds g h ↔ F.Holds g h := by
  cases h with
  | page s' v' =>
    have hsv : ¬ (s' = s ∧ v' = v) := by
      rintro ⟨rfl, rfl⟩
      exact hne rfl
    simp only [Holds, setPlace_place, hsv, if_false]
  | fault t => exact Iff.rfl

/-- The holders with what thread `t` has in hand changed to `o`. -/
theorem holds_setHand_self (F : FrameTable) (t : ThreadPtr) (o : Option (Int × Nat)) (g : Nat) :
    { F with hand := Function.update F.hand t o }.Holds g (.fault t) ↔ ∃ w, o = some (w, g) := by
  simp [Holds]

theorem holds_setHand_of_ne {h : Holder} (hne : h ≠ .fault t) (o : Option (Int × Nat)) (g : Nat) :
    { F with hand := Function.update F.hand t o }.Holds g h ↔ F.Holds g h := by
  cases h with
  | page s v => exact Iff.rfl
  | fault t' =>
    have ht : t' ≠ t := fun he => hne (he ▸ rfl)
    simp [Holds, Function.update_of_ne ht]

/-! ## The steps keep the invariant -/

theorem Inv.take {w : Int} (hF : F.Inv) (home : F.home t = some s) (empty : F.hand t = none)
    (nonneg : 0 ≤ w) (page : F.place s w.toNat = some p) (out : p.Out) (frame : f < numPhysPages)
    (free : F.marked f = false) : (F.take t w f).Inv where
  own := by
    refine hF.own.acquire (r := f) (x := .fault t) (by simp [free]) (fun g => ?_) (fun g => ?_)
      (fun g h hne => F.holds_setHand_of_ne hne _ g) fun g => ?_
    · simp [Holds, empty]
    · exact (F.holds_setHand_self t _ g).trans (by simp [eq_comm])
    · simp only [FrameTable.take, Function.update_apply]
      by_cases hg : g = f <;> simp [hg]
  range := by
    intro g hg
    simp only [FrameTable.take, Function.update_apply] at hg
    split at hg
    · exact ‹g = f› ▸ frame
    · exact hF.range hg
  homes := hF.homes
  places := hF.places
  owner := hF.owner
  hands := by
    intro t' v' g hg
    simp only [FrameTable.take, Function.update_apply] at hg
    split at hg
    · cases hg
      exact ⟨s, p, ‹t' = t› ▸ home, nonneg, page, out⟩
    · exact hF.hands hg
  listed := by
    intro hfifo g hg
    simp only [FrameTable.take, Function.update_apply] at hfifo hg ⊢
    rw [hfifo, if_pos rfl, List.mem_append]
    split at hg
    · exact .inr (by simpa using ‹g = f›)
    · exact .inl (hF.listed hfifo hg)
  listRange := by
    intro g hg
    simp only [FrameTable.take] at hg
    split at hg
    · rcases List.mem_append.mp hg with hg | hg
      · exact hF.listRange hg
      · exact List.mem_singleton.mp hg ▸ frame
    · exact hF.listRange hg

/-- What was out of memory still is when another page is put out or in. -/
theorem setPlace_out {s1 : SpacePtr} {v1 : Nat} {p1 q q' : Place} (h : F.place s1 v1 = some p1)
    (h' : F.place s v = some q) (hne : q ≠ p1) : (F.setPlace s v q').place s1 v1 = some p1 := by
  rw [setPlace_place, if_neg]
  · exact h
  · rintro ⟨rfl, rfl⟩
    rw [h'] at h
    cases h
    exact hne rfl

theorem Inv.evict {w : Int} {s' : SpacePtr} {v' : Nat} {p' : Place} (hF : F.Inv)
    (home : F.home t = some s) (empty : F.hand t = none) (nonneg : 0 ≤ w)
    (page : F.place s w.toNat = some p) (out : p.Out) (victim : F.place s' v' = some p')
    (mapped : p'.frame = f) (front : F.fifo = true → f = F.pageList.headD 0) :
    (F.evict t w f s' v').Inv := by
  have hin : p'.In f := hF.in_of_frame victim mapped
  have held : F.Holds f (.page s' v') := ⟨p', victim, mapped⟩
  -- a page that was out is not the victim, and is still out
  have hout {s1 : SpacePtr} {v1 : Nat} {p1 : Place} (h : F.place s1 v1 = some p1) (ho : p1.Out) :
      (F.evict t w f s' v').place s1 v1 = some p1 :=
    F.setPlace_out h victim fun he => hin.not_out (he ▸ ho)
  refine ⟨?own, hF.range, hF.homes, ?places, ?owner, ?hands, ?listed, ?listRange⟩
  case own =>
    let F1 := F.setPlace s' v' ⟨-1, false, false⟩
    refine hF.own.pass held (y := .fault t) (fun g => ?_) (fun g => ?_) (fun g => ?_)
      (fun g h hx hy => ?_) (fun _ => Iff.rfl) fun g hg => ?_
    · intro hg
      have hg := (F.holds_setPlace_self s' v' g _).mp hg
      exact Place.Out.frame_ne (p := ⟨-1, false, false⟩) ⟨rfl, rfl⟩ g hg
    · simp [Holds, empty]
    · exact (F1.holds_setHand_self t _ g).trans (by simp [eq_comm])
    · exact (F1.holds_setHand_of_ne hy _ g).trans (F.holds_setPlace_of_ne hx _ g)
    · obtain ⟨p1, h1, hg⟩ := hg
      rw [victim] at h1
      cases h1
      exact_mod_cast hg.symm.trans mapped
  case places =>
    intro s1 v1 p1 h1
    rw [evict_place] at h1
    split at h1
    · cases h1
      exact .inl ⟨rfl, rfl⟩
    · exact hF.places h1
  case owner =>
    intro s1 v1 p1 g h1 hg
    rw [evict_place] at h1
    split at h1
    · cases h1
      exact absurd ⟨rfl, rfl⟩ hg.not_out
    · exact hF.owner h1 hg
  case hands =>
    intro t' x g hg
    simp only [FrameTable.evict, Function.update_apply] at hg
    split at hg
    · cases hg
      exact ⟨s, p, ‹t' = t› ▸ home, nonneg, hout page out, out⟩
    · obtain ⟨s1, p1, hh, hx, h1, ho⟩ := hF.hands hg
      exact ⟨s1, p1, hh, hx, hout h1 ho, ho⟩
  case listed =>
    intro hfifo g hg
    change F.fifo = true at hfifo
    simp only [FrameTable.evict, hfifo, if_true, List.mem_append, List.mem_singleton]
    by_cases hgf : g = f
    · exact .inr hgf
    · left
      have hmem := hF.listed hfifo hg
      have hfront := front hfifo
      cases hl : F.pageList with
      | nil => rw [hl] at hmem; cases hmem
      | cons x rest =>
        rw [hl] at hmem hfront
        rcases List.mem_cons.mp hmem with rfl | hmem
        · exact absurd hfront.symm hgf
        · exact hmem
  case listRange =>
    intro g hg
    simp only [FrameTable.evict] at hg
    split at hg
    · rcases List.mem_append.mp hg with hg | hg
      · exact hF.listRange (List.mem_of_mem_tail hg)
      · exact List.mem_singleton.mp hg ▸ hF.range (hF.marked_of_holds held)
    · exact hF.listRange hg

theorem Inv.fill {w : Int} (hF : F.Inv) (home : F.home t = some s) (holds : F.hand t = some (w, f))
    (page : F.place s w.toNat = some p) : (F.fill t s w f p.swapped).Inv := by
  have held : F.Holds f (.fault t) := ⟨w, holds⟩
  have out : p.Out := by
    obtain ⟨s1, p1, hh, -, h1, ho⟩ := hF.hands holds
    cases home.symm.trans hh
    cases page.symm.trans h1
    exact ho
  refine ⟨?own, hF.range, hF.homes, ?places, ?owner, ?hands, hF.listed, hF.listRange⟩
  case own =>
    let F1 := F.setPlace s w.toNat ⟨f, true, p.swapped⟩
    refine hF.own.pass held (y := .page s w.toNat) (fun g => ?_) (fun g => ?_) (fun g => ?_)
      (fun g h hx hy => ?_) (fun _ => Iff.rfl) fun g hg => ?_
    · intro hg
      obtain ⟨_, h⟩ := (F1.holds_setHand_self t none g).mp hg
      cases h
    · intro ⟨p1, h1, hg⟩
      cases page.symm.trans h1
      exact out.frame_ne g hg
    · refine (F.holds_setPlace_self s w.toNat g _).trans ?_
      change (f : Int) = g ↔ g = f
      omega
    · exact (F1.holds_setHand_of_ne hx none g).trans (F.holds_setPlace_of_ne hy _ g)
    · obtain ⟨w', hg⟩ := hg
      cases holds.symm.trans hg
      rfl
  case places =>
    intro s1 v1 p1 h1
    rw [fill_place] at h1
    split at h1
    · cases h1
      exact .inr ⟨f, rfl, rfl⟩
    · exact hF.places h1
  case owner =>
    intro s1 v1 p1 g h1 hg
    rw [fill_place] at h1
    simp only [FrameTable.fill, Function.update_apply]
    split at h1
    · rename_i hsv
      cases h1
      have hgf : g = f := by
        have : (f : Int) = g := hg.1
        omega
      exact ⟨t, by rw [if_pos hgf], hsv.1 ▸ home⟩
    · -- another page's frame is not the one in hand
      have hgf : g ≠ f := by
        rintro rfl
        cases hF.own.unique (h := .page s1 v1) ⟨p1, h1, hg.1⟩ held
      rw [if_neg hgf]
      exact hF.owner h1 hg
  case hands =>
    intro t' x g hg
    simp only [FrameTable.fill, Function.update_apply] at hg
    split at hg
    · cases hg
    · rename_i ht
      obtain ⟨s1, p1, hh, hx, h1, ho⟩ := hF.hands hg
      refine ⟨s1, p1, hh, hx, ?_, ho⟩
      rw [fill_place, if_neg]
      · exact h1
      · rintro ⟨rfl, -⟩
        exact ht (hF.homes hh home)

theorem Inv.build {pages : Nat → Option Place} (hF : F.Inv) (newThread : F.home t = none)
    (newSpace : ∀ t', F.home t' ≠ some s) (unused : ∀ v, F.place s v = none)
    (out : ∀ v p, pages v = some p → p.Out) : (F.build t s pages).Inv := by
  have hplace (s1 : SpacePtr) (v1 : Nat) : (F.build t s pages).place s1 v1 =
      if s1 = s then pages v1 else F.place s1 v1 := by
    simp only [FrameTable.build, Function.update_apply]
    split <;> rfl
  have hhome {t1 : ThreadPtr} {s1 : SpacePtr} (h : F.home t1 = some s1) :
      (F.build t s pages).home t1 = some s1 := by
    rw [← h]
    refine Function.update_of_ne ?_ _ _
    rintro rfl
    rw [newThread] at h
    cases h
  have hkept {s1 : SpacePtr} {v1 : Nat} {p1 : Place} (h : F.place s1 v1 = some p1) :
      (F.build t s pages).place s1 v1 = some p1 := by
    rw [hplace, if_neg]
    · exact h
    · rintro rfl
      rw [unused] at h
      cases h
  refine ⟨?own, hF.range, ?homes, ?places, ?owner, ?hands, hF.listed, hF.listRange⟩
  case own =>
    refine hF.own.congr (fun g h => ?_) fun _ => Iff.rfl
    cases h with
    | fault t' => exact Iff.rfl
    | page s1 v1 =>
      constructor
      · intro ⟨p1, h1, hg⟩
        rw [hplace] at h1
        split at h1
        · exact absurd hg ((out _ _ h1).frame_ne g)
        · exact ⟨p1, h1, hg⟩
      · intro ⟨p1, h1, hg⟩
        exact ⟨p1, hkept h1, hg⟩
  case homes =>
    intro t1 t2 s1 h1 h2
    simp only [FrameTable.build, Function.update_apply] at h1 h2
    split at h1 <;> split at h2
    · rw [‹t1 = t›, ‹t2 = t›]
    · cases h1
      exact absurd h2 (newSpace t2)
    · cases h2
      exact absurd h1 (newSpace t1)
    · exact hF.homes h1 h2
  case places =>
    intro s1 v1 p1 h1
    rw [hplace] at h1
    split at h1
    · exact .inl (out _ _ h1)
    · exact hF.places h1
  case owner =>
    intro s1 v1 p1 g h1 hg
    rw [hplace] at h1
    split at h1
    · exact absurd (out _ _ h1) hg.not_out
    · obtain ⟨t1, hi, hh⟩ := hF.owner h1 hg
      exact ⟨t1, hi, hhome hh⟩
  case hands =>
    intro t1 x g hg
    obtain ⟨s1, p1, hh, hx, h1, ho⟩ := hF.hands hg
    exact ⟨s1, p1, hhome hh, hx, hkept h1, ho⟩

theorem Inv.remove {marked : Nat → Bool} (hF : F.Inv) (home : F.home t = some s)
    (empty : F.hand t = none) (cleared : ∀ f : Nat, marked f = true ↔ F.marked f = true ∧
      ∀ v (p : Place), F.place s v = some p → p.frame ≠ f) : (F.remove t s marked).Inv := by
  have hplace (s1 : SpacePtr) (v1 : Nat) : (F.remove t s marked).place s1 v1 =
      if s1 = s then none else F.place s1 v1 := by
    simp only [FrameTable.remove, Function.update_apply]
    split <;> rfl
  have hhome {t1 : ThreadPtr} {s1 : SpacePtr} (h : F.home t1 = some s1) (hs : s1 ≠ s) :
      (F.remove t s marked).home t1 = some s1 := by
    rw [← h]
    refine Function.update_of_ne ?_ _ _
    rintro rfl
    exact hs (Option.some.inj (h.symm.trans home))
  refine ⟨?own, fun hf => hF.range ((cleared _).mp hf).1, ?homes, ?places, ?owner, ?hands,
    fun hfifo _ hf => hF.listed hfifo ((cleared _).mp hf).1, hF.listRange⟩
  case own =>
    refine hF.own.release (fun h => ∃ v, h = .page s v) (fun g h => ?_) fun g => ?_
    · cases h with
      | fault t' => simp [Holds, FrameTable.remove]
      | page s1 v1 =>
        by_cases hs : s1 = s <;> simp [Holds, hplace, hs]
    · change marked g = true ↔ _
      rw [cleared]
      refine and_congr_right fun _ => ⟨?_, fun h v p hp hg => h _ ⟨v, rfl⟩ ⟨p, hp, hg⟩⟩
      rintro h _ ⟨v, rfl⟩ ⟨p, hp, hg⟩
      exact h v p hp hg
  case homes =>
    intro t1 t2 s1 h1 h2
    simp only [FrameTable.remove, Function.update_apply] at h1 h2
    split at h1
    · cases h1
    · split at h2
      · cases h2
      · exact hF.homes h1 h2
  case places =>
    intro s1 v1 p1 h1
    rw [hplace] at h1
    split at h1
    · cases h1
    · exact hF.places h1
  case owner =>
    intro s1 v1 p1 g h1 hg
    rw [hplace] at h1
    split at h1
    · cases h1
    · obtain ⟨t1, hi, hh⟩ := hF.owner h1 hg
      exact ⟨t1, hi, hhome hh ‹_›⟩
  case hands =>
    intro t1 x g hg
    obtain ⟨s1, p1, hh, hx, h1, ho⟩ := hF.hands hg
    have hs : s1 ≠ s := by
      rintro rfl
      cases hF.homes hh home
      rw [show F.hand t = some (x, g) from hg] at empty
      cases empty
    exact ⟨s1, p1, hhome hh hs, hx, by rw [hplace, if_neg hs]; exact h1, ho⟩

theorem Inv.step (hF : F.Inv) (h : Step clear F F') : F'.Inv := by
  cases h with
  | take home empty nonneg page out frame free =>
    exact hF.take home empty nonneg page out frame free
  | evict home empty nonneg page out victim mapped front =>
    exact hF.evict home empty nonneg page out victim mapped front
  | fill home holds page => exact hF.fill home holds page
  | build newThread newSpace unused out => exact hF.build newThread newSpace unused out
  | remove home empty cleared => exact hF.remove home empty cleared

theorem Unswapped.step (hU : F.Unswapped) (hc : clear) (h : Step clear F F') : F'.Unswapped := by
  intro s1 v1 p1 h1
  cases h with
  | take => exact hU h1
  | evict =>
    rw [evict_place] at h1
    split at h1
    · cases h1; rfl
    · exact hU h1
  | fill _ _ page =>
    rw [fill_place] at h1
    split at h1
    · cases h1; exact (hU page :)
    · exact hU h1
  | build _ _ _ _ unset =>
    simp only [FrameTable.build, Function.update_apply] at h1
    split at h1
    · exact unset hc _ _ h1
    · exact hU h1
  | remove =>
    simp only [FrameTable.remove, Function.update_apply] at h1
    split at h1
    · cases h1
    · exact hU h1

/-- The same for any number of steps, as in an event that takes and maps a
frame at once. -/
theorem Inv.steps (hF : F.Inv) (h : Relation.ReflTransGen (Step clear) F F') : F'.Inv := by
  induction h with
  | refl => exact hF
  | tail _ hs ih => exact ih.step hs

theorem Unswapped.steps (hU : F.Unswapped) (hc : clear)
    (h : Relation.ReflTransGen (Step clear) F F') : F'.Unswapped := by
  induction h with
  | refl => exact hU
  | tail _ hs ih => exact ih.step hc hs

end FrameTable
end Nachos

import Nachos.Lib.Recency
import Nachos.Userprog.Exclusive

/-! The order of replacement under FIFO. `Dated` runs the machine whose page
faults are single steps next to a record of when each frame was loaded. The list
that `loadPage` takes its victims from always shows that order in the last entry
of each frame; but its front is the oldest frame only as long as it holds no
entries from before, and `~AddrSpace` gives frames back without taking their
entries out. -/

namespace Nachos
open Lib

namespace Kernel

/-- The frame a fault has loaded: the one its page is mapped to afterwards. -/
def loadedFrame (k : Kernel) : Event → Option Nat
  | .fault addr _ => (k.spaceOf k.currentThread).bind fun s => (k.space s).map fun S =>
      (S.pageTable (pageOfAddr addr).toNat).physicalPage.toNat
  | _ => none

/-- A process that ends has no frame. -/
def ExitsEmpty (k : Kernel) (e : Event) : Prop :=
  e.Finishes → ∀ s v f, k.spaceOf k.currentThread = some s → ¬ k.Maps s v f

/-- Among the frames in use, the last entry of the front is the first last
entry. -/
def FrontFirst (k : Kernel) : Prop :=
  ∀ g, k.memMap g = true → g ≠ k.pageList.headD 0 → Behind k.pageList (k.pageList.headD 0) g

/-- A fault would get frame `f`. -/
def selects (k : Kernel) (random f : Nat) : Bool :=
  match k.selectPage random with
  | .ok r => r.1 == f
  | .error _ => false

/-- What an uninterrupted step does to the marks and the FIFO list. -/
inductive ListStep (k : Kernel) : Event → Kernel → Prop
  | kept {e k'} (loads : k'.loadedFrame e = none) (marks : k'.memMap = k.memMap)
    (list : k'.pageList = k.pageList) : ListStep k e k'
  | taken {e f k'} (loads : k'.loadedFrame e = some f) (free : k.memMap f = false)
    (marks : k'.memMap = Function.update k.memMap f true)
    (list : k'.pageList = k.pageList ++ [f]) : ListStep k e k'
  | evicted {e f k'} (loads : k'.loadedFrame e = some f) (inUse : k.memMap f = true)
    (front : f = k.pageList.headD 0) (marks : k'.memMap = k.memMap)
    (list : k'.pageList = k.pageList.tail ++ [f]) : ListStep k e k'
  | freed {e s S k'} (loads : k'.loadedFrame e = none) (ends : e.Finishes)
    (running : k.spaceOf k.currentThread = some s) (space : k.space s = some S)
    (marks : S.clearFrames k.memMap = .ok k'.memMap)
    (list : k'.pageList = k.pageList) : ListStep k e k'

variable {k k' : Kernel} {n : Next} {e : Event} {es : List Event} {s : SpacePtr} {f : Nat}

theorem selects_iff {random : Nat} :
    k.selects random f = true ↔ ∃ k1, k.selectPage random = .ok (f, k1) := by
  unfold selects
  cases k.selectPage random with
  | error _ => simp
  | ok r => simp [Prod.ext_iff]

/-! ## The steps -/

theorem loadedFrame_of_not_fault (k : Kernel) (h : ∀ addr random, e ≠ .fault addr random) :
    k.loadedFrame e = none := by
  cases e with
  | fault addr random => exact absurd rfl (h addr random)
  | _ => rfl

/-- `loadPage` marks the first free frame, or takes the front of the list if
there is none; the frame goes to the end of the list. -/
theorem loadPage_listStep {addr : BitVec 32} {random : Nat} (hfifo : k.swapChoice = 1)
    (hs : k.spaceOf k.currentThread = some s) (h : k.loadPage s addr random = .ok k') :
    ListStep k (.fault addr random) k' := by
  obtain ⟨f, k1, hsel, hbranch⟩ := loadPage_cases h
  obtain ⟨-, -, k2, hfill, rfl⟩ := hbranch.resolve_right fun h => h.1 hfifo
  obtain ⟨hm, hf⟩ := selectPage_memoryOnly hsel
  obtain ⟨S, valid, hS, hlt, hframes, -⟩ := fillPage_frames hfill
  obtain ⟨st, r, l, hV⟩ := k2.lockV_eq f
  have hrest : k2.unpaged = ((k1.appendPage f).lockTake f).unpaged :=
    (fillPage_memoryOnly hfill).rest
  have hmarks : (k2.lockV f).memMap = k1.memMap := by
    rw [hV]
    exact (congrArg FrameTable.marked hframes :)
  have hlist : (k2.lockV f).pageList = k1.pageList ++ [f] := by
    rw [hV]
    exact (congrArg FrameTable.pageList hframes :)
  have hloads : (k2.lockV f).loadedFrame (.fault addr random) = some f := by
    have hsp : k2.spaceOf k2.currentThread = some s := by
      unfold spaceOf
      rw [show k2.thread = k1.thread from (congrArg Kernel.thread hrest :),
        show k2.currentThread = k1.currentThread from (congrArg Kernel.currentThread hrest :),
        show k1.thread = k.thread from (congrArg Kernel.thread hm.rest :),
        show k1.currentThread = k.currentThread from (congrArg Kernel.currentThread hm.rest :)]
      exact hs
    have hplace : k2.frames.place s (pageOfAddr addr).toNat =
        some ⟨f, valid, S.swapped (pageOfAddr addr).toNat⟩ := by
      rw [hframes]
      exact (FrameTable.setPlace_place _ s s _ _ _).trans (if_pos ⟨rfl, rfl⟩)
    obtain ⟨S', hS', hp⟩ := frames_place.mp hplace
    obtain ⟨-, hp⟩ := AddrSpace.place_eq_some.mp hp
    have hphys : (f : Int) = (S'.pageTable (pageOfAddr addr).toNat).physicalPage :=
      (congrArg Place.frame hp :)
    rw [hV]
    change ((k2.spaceOf k2.currentThread).bind fun s => (k2.space s).map fun S =>
      (S.pageTable (pageOfAddr addr).toNat).physicalPage.toNat) = some f
    rw [hsp, Option.bind_some, hS', Option.map_some, ← hphys, Int.toNat_natCast]
  rcases selectPage_frames hsel with ⟨hfind, hk1⟩ | ⟨hfull, _, _, _, -, -, hfront, hk1⟩
  · refine .taken hloads (find_lt hfind).2 ?_ ?_
    · rw [hmarks]
      exact (congrArg FrameTable.marked hk1 :)
    · rw [hlist, show k1.pageList = k.pageList from (congrArg FrameTable.pageList hk1 :)]
  · have htail : k1.pageList = k.pageList.tail :=
      (congrArg FrameTable.pageList hk1 :).trans (if_pos hfifo)
    refine .evicted hloads (marked_of_full hfull hf) (hfront hfifo) ?_ ?_
    · rw [hmarks]
      exact (congrArg FrameTable.marked hk1 :)
    · rw [hlist, htail]

theorem terminate_listStep (hi : k.Inv) (he : e.Finishes) (h : k.terminate = .ok k') :
    ListStep k e k' := by
  obtain ⟨T, hT, -⟩ := hi.running
  obtain ⟨s, hs, -⟩ := hi.procs.space hT
  obtain ⟨S, m, st, hS, hm, hk⟩ := terminate_eq_ok (live_eq_some hT).2 hs h
  have hnot (addr : BitVec 32) (random : Nat) : e ≠ .fault addr random := by
    rintro rfl
    exact he
  refine .freed (k'.loadedFrame_of_not_fault hnot) he ((spaceOf_of_live hT).trans hs) hS ?_ ?_
  · rw [hk]
    exact hm
  · rw [hk]

/-- The events other than faults: only the end of a process frees frames, and
none touches the list. -/
theorem act_listStep (hi : k.Inv) (hf : ∀ addr random, e ≠ .fault addr random)
    (hlock : ∀ fire, e ≠ .lock fire) (hload : ∀ fire, e ≠ .load fire)
    (h : k.act e = .ok (k', n)) : ListStep k e k' := by
  have hkept (hm : k'.memMap = k.memMap) (hl : k'.pageList = k.pageList) : ListStep k e k' :=
    .kept (k'.loadedFrame_of_not_fault hf) hm hl
  cases acts_of_act h with
  | @fault addr random => exact absurd rfl (hf addr random)
  | @lock fire => exact absurd rfl (hlock fire)
  | @load fire => exact absurd rfl (hload fire)
  | instr _ h1 =>
    have hsame := accesses_frames h1
    exact hkept (congrArg FrameTable.marked hsame :) (congrArg FrameTable.pageList hsame :)
  | copy _ h1 =>
    have hsame := access_frames h1
    exact hkept (congrArg FrameTable.marked hsame :) (congrArg FrameTable.pageList hsame :)
  | tick _ => exact hkept rfl rfl
  | trap _ => exact hkept rfl rfl
  | @ret result _ =>
    cases result with
    | none => exact hkept rfl rfl
    | some r => exact hkept rfl rfl
  | exec hc h =>
    obtain ⟨hi', ha'⟩ := hi.back hc
    rcases exec_cases hi' ha' h with ⟨-, rfl, -⟩ | ⟨x, k1, -, hnew, -, rfl⟩
    · exact hkept rfl rfl
    · obtain ⟨T, numPages, i, -, -, -, -, hk1⟩ := newAddrSpace_eq_ok hnew
      exact hkept (by rw [hk1]; rfl) (by rw [hk1]; rfl)
  | join hc h =>
    obtain ⟨hi', ha'⟩ := hi.back hc
    rcases join_target hi' ha' h with ⟨-, rfl, -⟩ | ⟨c, -, -, rfl⟩
    · exact hkept rfl rfl
    · exact hkept rfl rfl
  | yield _ => exact hkept rfl rfl
  | exit _ h1 => exact terminate_listStep hi trivial h1
  | @fatal addr merged _ _ h1 =>
    have hr : (k.raise addr).Inv := hi.registers _ (by simp)
    have hend : ListStep (k.raise addr) (.fatal addr merged) k' :=
      terminate_listStep hr trivial h1
    cases hend with
    | kept _ marks list => exact hkept marks list
    | taken loads => cases loads
    | evicted loads => cases loads
    | freed loads ends running space marks list =>
      exact .freed loads ends running space marks list
  | enable _ => exact hkept rfl rfl
  | create _ h1 =>
    obtain ⟨_, _, -, -, hk, -⟩ := create_eq_ok h1
    exact hkept (congrArg Kernel.memMap hk :) (congrArg Kernel.pageList hk :)

/-- A switch of threads behind the event changes neither. -/
theorem ListStep.dispatch {k1 : Kernel} (h : ListStep k e k1)
    (hf : ∀ addr random, e ≠ .fault addr random) (hd : k1.dispatch n = .ok k') :
    ListStep k e k' := by
  obtain ⟨hr, -⟩ := dispatch_frame hd
  have hm : k'.memMap = k1.memMap := (congrArg Kernel.memMap hr :)
  have hl : k'.pageList = k1.pageList := (congrArg Kernel.pageList hr :)
  have hnone (k : Kernel) : k.loadedFrame e = none := k.loadedFrame_of_not_fault hf
  cases h with
  | kept _ marks list => exact .kept (hnone k') (hm.trans marks) (hl.trans list)
  | taken loads => rw [hnone] at loads; cases loads
  | evicted loads => rw [hnone] at loads; cases loads
  | freed _ ends running space marks list =>
    exact .freed (hnone k') ends running space (hm ▸ marks) (hl.trans list)

theorem atomicStep_listStep (hi : k.Inv) (hfifo : k.swapChoice = 1)
    (h : k.atomicStep e = .ok k') : ListStep k e k' := by
  have hsingle (hf : ∀ addr random, e ≠ .fault addr random) (hlock : ∀ fire, e ≠ .lock fire)
      (hload : ∀ fire, e ≠ .load fire) (h : k.step e = .ok k') : ListStep k e k' := by
    obtain ⟨⟨k1, n⟩, hact, hdisp⟩ := bind_eq_ok.mp h
    exact (act_listStep hi hf hlock hload hact).dispatch hf hdisp
  cases e with
  | fault addr random =>
    obtain ⟨-, h⟩ := ite_error_eq_ok.mp h
    obtain ⟨s, hs, h⟩ := bind_eq_ok.mp h
    have hstep : ListStep (k.raise addr) (.fault addr random) k' :=
      loadPage_listStep hfifo (currentSpace_eq_ok hs) h
    cases hstep with
    | kept loads marks list => exact .kept loads marks list
    | taken loads free marks list => exact .taken loads free marks list
    | evicted loads inUse front marks list => exact .evicted loads inUse front marks list
    | freed _ ends => cases ends
  | lock fire => cases h
  | load fire => cases h
  | _ => exact hsingle (by simp) (by simp) (by simp) h

/-- What stays true of the machine whose faults are single steps. -/
structure Atomic (k : Kernel) : Prop where
  inv : k.Inv
  sized : k.Sized
  quiet : k.Quiet
  fifo : k.swapChoice = 1

theorem Atomic.step (hk : k.Atomic) (h : k.atomicStep e = .ok k') : k'.Atomic := by
  obtain ⟨es, hrun, hq, -⟩ := atomicStep_run hk.inv hk.quiet h
  obtain ⟨hi, hz, hfifo⟩ : k'.Inv ∧ k'.Sized ∧ k'.swapChoice = 1 := by
    refine hrun.inv (I := fun k => k.Inv ∧ k.Sized ∧ k.swapChoice = 1) ?_
      ⟨hk.inv, hk.sized, hk.fifo⟩
    intro k e k' hk hs
    obtain ⟨hi, hz, hfifo⟩ := hk
    exact ⟨step_inv hi hs, hz.step hi hs, (step_swapChoice hi hs).trans hfifo⟩
  exact ⟨hi, hz, hq, hfifo⟩

theorem boot_atomic {c : Config} (hboot : boot c = .ok k) (hc : c.swapChoice = 1) :
    k.Atomic := by
  refine ⟨boot_inv hboot, boot_sized hboot, ?_, (boot_swapChoice hboot).trans hc⟩
  obtain ⟨x, numPages, -, -, hk⟩ := boot_eq_ok hboot
  rw [hk]
  exact ⟨fun _ => rfl, fun _ => rfl⟩

end Kernel

/-! ## Dates -/

/-- The kernel, with the number of the step it is at and, for each frame, that
of the step which loaded its page. -/
structure Dated where
  kernel : Kernel
  now : Nat
  loadedAt : Nat → Nat

namespace Dated

def step (d : Dated) (e : Event) : Except Fault Dated := do
  let k ← d.kernel.atomicStep e
  .ok { kernel := k
        now := d.now + 1
        loadedAt := match k.loadedFrame e with
          | some f => Function.update d.loadedAt f d.now
          | none => d.loadedAt }

def start (k : Kernel) : Dated := ⟨k, 0, fun _ => 0⟩

/-- The page in `f` was loaded before that of any other frame in use. -/
def Oldest (d : Dated) (f : Nat) : Prop :=
  ∀ g, d.kernel.memMap g = true → g ≠ f → d.loadedAt f < d.loadedAt g

/-- The list misses no frame in use, and its last entries are in the order of
loading. -/
structure Inv (d : Dated) : Prop where
  atomic : d.kernel.Atomic
  listed : ∀ f, d.kernel.memMap f = true → f ∈ d.kernel.pageList
  order : LastOrdered d.loadedAt d.kernel.pageList
  past : ∀ f ∈ d.kernel.pageList, d.loadedAt f < d.now

/-- The list has one entry for each frame in use, and no others. -/
structure Exact (d : Dated) : Prop where
  once : d.kernel.pageList.Nodup
  inUse : ∀ f ∈ d.kernel.pageList, d.kernel.memMap f = true

variable {d d' : Dated} {e : Event} {es : List Event} {f : Nat}

/-- The record does not influence the kernel. -/
theorem step_kernel (h : d.step e = .ok d') : d.kernel.atomicStep e = .ok d'.kernel := by
  obtain ⟨k, hk, h⟩ := bind_eq_ok.mp h
  cases h
  exact hk

theorem step_now (h : d.step e = .ok d') : d'.now = d.now + 1 := by
  obtain ⟨k, -, h⟩ := bind_eq_ok.mp h
  cases h
  rfl

theorem step_loadedAt (h : d.step e = .ok d') : d'.loadedAt =
    match d'.kernel.loadedFrame e with
    | some f => Function.update d.loadedAt f d.now
    | none => d.loadedAt := by
  obtain ⟨k, -, h⟩ := bind_eq_ok.mp h
  cases h
  rfl

/-- Every run of the kernel can be dated. -/
theorem run_of_kernel {k k' : Kernel} (h : Run Kernel.atomicStep k es k') (now : Nat)
    (loadedAt : Nat → Nat) :
    ∃ d, Run step ⟨k, now, loadedAt⟩ es d ∧ d.kernel = k' := by
  induction h generalizing now loadedAt with
  | nil => exact ⟨_, .nil, rfl⟩
  | @cons k e k1 es k' hs _ ih =>
    obtain ⟨loadedAt', hd⟩ : ∃ loadedAt', step ⟨k, now, loadedAt⟩ e =
        .ok ⟨k1, now + 1, loadedAt'⟩ := ⟨_, bind_eq_ok.mpr ⟨k1, hs, rfl⟩⟩
    obtain ⟨d, hr, hk⟩ := ih (now + 1) loadedAt'
    exact ⟨d, .cons hd hr, hk⟩

/-! ## What a step preserves -/

/-- The frame `f` goes to the end of what is left of the list. -/
theorem Inv.enter {l : List Nat} (hd : d.Inv) (h : d.step e = .ok d')
    (loads : d'.kernel.loadedFrame e = some f) (order : LastOrdered d.loadedAt l)
    (past : ∀ g ∈ l, d.loadedAt g < d.now)
    (listed : ∀ g, d'.kernel.memMap g = true → g ≠ f → g ∈ l)
    (list : d'.kernel.pageList = l ++ [f]) : d'.Inv := by
  have hdate : d'.loadedAt = Function.update d.loadedAt f d.now := by
    rw [step_loadedAt h, loads]
  refine ⟨hd.atomic.step (step_kernel h), fun g hg => ?_, ?_, fun g hg => ?_⟩
  · rw [list]
    by_cases hgf : g = f
    · exact List.mem_append_right _ (List.mem_singleton.mpr hgf)
    · exact List.mem_append_left _ (listed g hg hgf)
  · rw [hdate, list]
    exact order.enter past f
  · rw [list] at hg
    rw [hdate, step_now h, Function.update_apply]
    split
    · exact Nat.lt_succ_self _
    · rename_i hgf
      have hgl : g ∈ l := (List.mem_append.mp hg).resolve_right (by simpa using hgf)
      exact Nat.lt_succ_of_lt (past g hgl)

/-- Nothing is loaded, and frames are at most given back. -/
theorem Inv.stay (hd : d.Inv) (h : d.step e = .ok d') (loads : d'.kernel.loadedFrame e = none)
    (marks : ∀ g, d'.kernel.memMap g = true → d.kernel.memMap g = true)
    (list : d'.kernel.pageList = d.kernel.pageList) : d'.Inv := by
  have hdate : d'.loadedAt = d.loadedAt := by
    rw [step_loadedAt h, loads]
  refine ⟨hd.atomic.step (step_kernel h), fun g hg => ?_, ?_, fun g hg => ?_⟩
  · rw [list]
    exact hd.listed g (marks g hg)
  · rw [hdate, list]
    exact hd.order
  · rw [list] at hg
    rw [hdate, step_now h]
    exact Nat.lt_succ_of_lt (hd.past g hg)

theorem Inv.step (hd : d.Inv) (h : d.step e = .ok d') : d'.Inv := by
  cases Kernel.atomicStep_listStep hd.atomic.inv hd.atomic.fifo (step_kernel h) with
  | kept loads marks list =>
    exact hd.stay h loads (fun g hg => by rwa [marks] at hg) list
  | taken loads free marks list =>
    refine hd.enter h loads hd.order hd.past (fun g hg hgf => ?_) list
    rw [marks, Function.update_of_ne hgf] at hg
    exact hd.listed g hg
  | evicted loads inUse front marks list =>
    refine hd.enter h loads hd.order.tail (fun g hg => hd.past g (List.mem_of_mem_tail hg))
      (fun g hg hgf => ?_) list
    rw [marks] at hg
    have hmem := hd.listed g hg
    -- only the front leaves the list
    cases hl : d.kernel.pageList with
    | nil => rw [hl] at hmem; cases hmem
    | cons x rest =>
      rw [hl] at hmem front
      refine (List.mem_cons.mp hmem).resolve_left fun hgx => hgf ?_
      rw [hgx, front]
      rfl
  | freed loads ends running space marks list =>
    refine hd.stay h loads (fun g hg => ?_) list
    have hS := (hd.atomic.sized _ _ space).1
    exact ((AddrSpace.clearFrames_eq_ok hS marks g).mp hg).1

/-- As long as no process ends with a frame, no entry is left behind. -/
theorem Exact.step (hx : d.Exact) (hd : d.Inv) (he : d.kernel.ExitsEmpty e)
    (h : d.step e = .ok d') : d'.Exact := by
  cases Kernel.atomicStep_listStep hd.atomic.inv hd.atomic.fifo (step_kernel h) with
  | kept loads marks list =>
    refine ⟨by rw [list]; exact hx.once, fun g hg => ?_⟩
    rw [list] at hg
    rw [marks]
    exact hx.inUse g hg
  | taken loads free marks list =>
    rename_i f
    refine ⟨?_, fun g hg => ?_⟩
    · -- a frame that was free was not on the list
      have hnew : f ∉ d.kernel.pageList := fun hf => by
        rw [hx.inUse f hf] at free
        cases free
      rw [list, List.nodup_append]
      refine ⟨hx.once, List.nodup_singleton f, fun g hg y hy hgy => hnew ?_⟩
      rw [← List.mem_singleton.mp hy, ← hgy]
      exact hg
    · rw [list] at hg
      rw [marks, Function.update_apply]
      split
      · rfl
      · rename_i hgf
        exact hx.inUse g ((List.mem_append.mp hg).resolve_right (by simpa using hgf))
  | evicted loads inUse front marks list =>
    rename_i f
    have honce := hx.once
    have hused := hx.inUse
    cases hl : d.kernel.pageList with
    | nil =>
      have hmem := hd.listed f inUse
      rw [hl] at hmem
      cases hmem
    | cons x rest =>
      -- the front goes to the end
      rw [hl] at front list honce hused
      have hperm : (rest ++ [f]).Perm (x :: rest) := by
        rw [show f = x from front]
        exact List.perm_append_comm
      have hlist : d'.kernel.pageList = rest ++ [f] := list
      refine ⟨?_, fun g hg => ?_⟩
      · rw [hlist]
        exact hperm.nodup_iff.mpr honce
      · rw [hlist] at hg
        rw [marks]
        exact hused g (hperm.mem_iff.mp hg)
  | freed loads ends running space marks list =>
    rename_i s S
    refine ⟨by rw [list]; exact hx.once, fun g hg => ?_⟩
    rw [list] at hg
    have hS := (hd.atomic.sized _ _ space).1
    refine (AddrSpace.clearFrames_eq_ok hS marks g).mpr ⟨hx.inUse g hg, fun v hv hphys => ?_⟩
    exact he ends s v g running ⟨S, space, hv, hphys⟩

/-! ## Whole runs -/

theorem start_inv {c : Config} {k0 : Kernel} (hboot : boot c = .ok k0) (hc : c.swapChoice = 1) :
    (start k0).Inv ∧ (start k0).Exact := by
  have hatomic : k0.Atomic := Kernel.boot_atomic hboot hc
  obtain ⟨x, numPages, -, -, hk⟩ := boot_eq_ok hboot
  have hmarks : k0.memMap = fun _ => false := by rw [hk]; rfl
  have hlist : k0.pageList = [] := by rw [hk]; rfl
  refine ⟨⟨hatomic, fun f hf => ?_, ?_, fun f hf => ?_⟩, ?_, fun f hf => ?_⟩
  · change k0.memMap f = true at hf
    rw [hmarks] at hf
    cases hf
  · change LastOrdered _ k0.pageList
    rw [hlist]
    exact .nil
  · change f ∈ k0.pageList at hf
    rw [hlist] at hf
    cases hf
  · change k0.pageList.Nodup
    rw [hlist]
    exact List.nodup_nil
  · change f ∈ k0.pageList at hf
    rw [hlist] at hf
    cases hf

theorem Inv.front_mem (hd : d.Inv) (hfull : d.kernel.find = none) :
    d.kernel.pageList.headD 0 ∈ d.kernel.pageList := by
  have hmem := hd.listed 0 (Kernel.marked_of_full hfull (by decide))
  cases hl : d.kernel.pageList with
  | nil => rw [hl] at hmem; cases hmem
  | cons x rest => exact List.mem_cons_self

/-- Whether the front is the oldest frame can be seen from the list alone. -/
theorem Inv.oldest_iff (hd : d.Inv) (hfull : d.kernel.find = none) :
    d.Oldest (d.kernel.pageList.headD 0) ↔ d.kernel.FrontFirst := by
  have hfront := hd.front_mem hfull
  refine forall_congr' fun g => forall_congr' fun hg => forall_congr' fun hne => ?_
  exact (hd.order.behind_iff hfront (hd.listed g hg) hne).symm

theorem Exact.frontFirst (hx : d.Exact) (hd : d.Inv) : d.kernel.FrontFirst := by
  intro g hg hne
  have hmem := hd.listed g hg
  have honce := hx.once
  cases hl : d.kernel.pageList with
  | nil => rw [hl] at hmem; cases hmem
  | cons x rest =>
    rw [hl] at hmem hne honce
    exact ⟨[], rest, rfl, (List.nodup_cons.mp honce).1, (List.mem_cons.mp hmem).resolve_left hne⟩

/-- Under FIFO with every page fault one step: when memory is full, the frame
that a fault evicts is the one loaded first exactly if the front of the list has
its last entry in front of all others'; and that is so in every state of a run
in which no process ends while it has a frame. -/
theorem evicts_oldest_iff {c : Config} {k0 : Kernel} (hboot : boot c = .ok k0)
    (hc : c.swapChoice = 1) (hrun : Run step (start k0) es d) :
    (∀ addr random f k1, d.kernel.find = none →
      (d.kernel.raise addr).selectPage random = .ok (f, k1) →
      (d.Oldest f ↔ d.kernel.FrontFirst)) ∧
    (Guarded step (fun d e => d.kernel.ExitsEmpty e) (start k0) es → d.kernel.FrontFirst) := by
  obtain ⟨hd0, hx0⟩ := start_inv hboot hc
  have hd : d.Inv := hrun.inv (fun _ _ _ hd hs => hd.step hs) hd0
  constructor
  · intro addr random f k1 hfull hsel
    have hfront : f = d.kernel.pageList.headD 0 := by
      rcases Kernel.selectPage_frames hsel with ⟨hfind, -⟩ | ⟨-, _, _, _, -, -, hfront, -⟩
      · change d.kernel.find = some f at hfind
        rw [hfull] at hfind
        cases hfind
      · exact hfront hd.atomic.fifo
    rw [hfront]
    exact hd.oldest_iff hfull
  · intro hg
    obtain ⟨hd, hx⟩ := hrun.guarded_inv (I := fun d => d.Inv ∧ d.Exact)
      (fun _ _ _ hd he hs => ⟨hd.1.step hs, hd.2.step hd.1 he hs⟩) hg ⟨hd0, hx0⟩
    exact hx.frontFirst hd

/-- Faults on the first `n` pages, each one step. -/
def firstFaults (n : Nat) : List Event :=
  (List.range n).map fun v => .fault (BitVec.ofNat 32 (v * pageSize)) 0

/-- One process fills memory. The next fault evicts frame 0, the first loaded. -/
theorem evicts_oldest_alone : ∃ (k0 : Kernel) (d : Dated), boot (.sample 1) = .ok k0 ∧
    Run step (start k0) (firstFaults 32) d ∧ d.kernel.find = none ∧
    (∃ k1, (d.kernel.raise 8192).selectPage 0 = .ok (0, k1)) ∧ d.Oldest 0 := by
  have hdemo : (Config.sample 1).boots (fun k0 => continues step (start k0) (firstFaults 32)
      fun d => decide (d.kernel.find = none) &&
        (d.kernel.raise 8192).selects 0 0) = true := by
    decide +kernel
  obtain ⟨k0, hboot, hdemo⟩ := Config.boots_iff.mp hdemo
  obtain ⟨d, hrun, hp⟩ := continues_iff.mp hdemo
  obtain ⟨hfull, hsel⟩ := Bool.and_eq_true_iff.mp hp
  have hfull : d.kernel.find = none := of_decide_eq_true hfull
  obtain ⟨k1, hsel⟩ := Kernel.selects_iff.mp hsel
  obtain ⟨hiff, hguarded⟩ := evicts_oldest_iff hboot rfl hrun
  have hexits : Guarded step (fun d e => d.kernel.ExitsEmpty e) (start k0) (firstFaults 32) := by
    refine .of_events fun e he d hends => ?_
    obtain ⟨v, -, rfl⟩ := List.mem_map.mp he
    cases hends
  exact ⟨k0, d, hboot, hrun, hfull, ⟨k1, hsel⟩,
    (hiff 8192 0 0 k1 hfull hsel).mpr (hguarded hexits)⟩

/-- A child loads one page, into frame 0, and exits; its entry stays at the front
of the list. Its parent then loads 32 pages, again from frame 0 on, and one
more, which takes frame 0 from the page loaded first. -/
def staleSample : List Event :=
  execSample ++ [.trap, .yield] ++ [.enable false, .create, .fault 0 0, .trap, .exit] ++
    firstFaults 33

/-- The front of the list is frame 0 again: the next fault evicts the page that
was loaded last, although that in frame 1 is older. -/
theorem evicts_newest : ∃ (k0 : Kernel) (d : Dated), boot (.sample 1) = .ok k0 ∧
    Run step (start k0) staleSample d ∧ d.kernel.atUser ∧ d.kernel.Faults 8448 ∧
    d.kernel.find = none ∧ (∃ k1, (d.kernel.raise 8448).selectPage 0 = .ok (0, k1)) ∧
    d.kernel.memMap 1 = true ∧ (∀ g < numPhysPages, d.loadedAt g ≤ d.loadedAt 0) ∧
    ¬ d.Oldest 0 := by
  have hdemo : (Config.sample 1).boots (fun k0 => continues step (start k0) staleSample
      fun d => decide d.kernel.atUser && decide (d.kernel.Faults 8448) &&
        decide (d.kernel.find = none) && d.kernel.memMap 1 &&
        decide (∀ g < numPhysPages, d.loadedAt g ≤ d.loadedAt 0) &&
        (d.kernel.raise 8448).selects 0 0) = true := by
    decide +kernel
  obtain ⟨k0, hboot, hdemo⟩ := Config.boots_iff.mp hdemo
  obtain ⟨d, hrun, hp⟩ := continues_iff.mp hdemo
  simp only [Bool.and_eq_true, decide_eq_true_eq] at hp
  obtain ⟨⟨⟨⟨⟨hu, hflt⟩, hfull⟩, hmark⟩, hnewest⟩, hsel⟩ := hp
  refine ⟨k0, d, hboot, hrun, hu, hflt, hfull, Kernel.selects_iff.mp hsel, hmark, hnewest,
    fun hold => ?_⟩
  have holder := hold 1 hmark (by decide)
  have hnewer := hnewest 1 (by decide)
  omega

end Dated
end Nachos

import Nachos.Userprog.Invariant

/-! What an event does to the kernel at large. `Acted` goes through the events
once: all but four kinds only move the running thread along and work on its
pages; the others build a process, put one to sleep, end one, or set a new one
up. `ProcStep` and `SpaceStep` read off what a whole step does to the live
threads and to the address spaces. -/

namespace Nachos
open Lib

/-- The events in which the running thread executes `Thread::Finish`. -/
def Event.Finishes : Event → Prop
  | .exit => True
  | .fatal _ _ => True
  | _ => False

namespace Kernel

/-- The thread that the running thread's `SC_Join` would wait for. -/
def joinTarget (k : Kernel) : Option ThreadPtr :=
  if 0 ≤ (k.registers 4).toInt then
    k.activeThreads.reverse.find? (k.hasID (k.registers 4).toInt)
  else none

/-- What an ordinary event leaves alone, besides the shape of the spaces. -/
def settled (k : Kernel) : Kernel :=
  { k.unpaged with registers := fun _ => 0, cont := fun _ => .user, pageLock := fun _ => ⟨0, []⟩
                   status := fun _ => .justCreated, readyList := [] }

/-- The running thread moves along and works on its pages; it may also pass a
page lock. -/
structure Local (k k' : Kernel) : Prop where
  rest : k'.settled = k.settled
  conts : ∀ t, t ≠ k.currentThread → k'.cont t = k.cont t
  fixed : ∀ s, (k'.space s).map AddrSpace.fixed = (k.space s).map AddrSpace.fixed
  grows : ∀ i, (k.hostData i).length ≤ (k'.hostData i).length

/-- What the running thread does in an event. -/
inductive Acted (k : Kernel) : Event → Kernel → Prop
  | moved {e k'} (h : Local k k') (nojoin : e = .join → k.joinTarget = none)
    (noexec : ∀ filename junk fire, e = .exec filename junk fire → k.exe filename = none) :
    Acted k e k'
  | built {filename junk fire x k1} (opens : k.exe filename = some x)
    (new : (k.goTo .user).newAddrSpace x junk = .ok (k.nextSpace, k1)) :
    Acted k (.exec filename junk fire) (((k1.writeRegister 2
      (BitVec.ofNat 32 k.threadID)).newThread k.nextSpace).readyToRun k.nextThread)
  | joined {c} (target : k.joinTarget = some c) :
    Acted k .join { k.goTo .user with
      thread := fun x => (k.thread x).map (joinEffect k.currentThread c x) }
  | ended {e r k'} (ends : e.Finishes) (home : k.AtHome)
    (h : { k with registers := r }.terminate = .ok k') : Acted k e k'
  | created {k'} (h : k.create = .ok k') : Acted k .create (k'.goTo .user)

/-- What a step does to the live threads. -/
inductive ProcStep (k : Kernel) : Event → Kernel → Prop
  | same {e k'} (live : k'.live = k.live) (idle : e = .join → k.joinTarget = none) :
    ProcStep k e k'
  | spawn {filename junk fire k'}
    (live : ∀ t, k'.live t = if t = k.nextThread then some k.child else k.live t) :
    ProcStep k (.exec filename junk fire) k'
  | join {c k'} (target : k.joinTarget = some c)
    (live : ∀ t, k'.live t = (k.live t).map (joinEffect k.currentThread c t)) :
    ProcStep k .join k'
  | finish {e T k'} (ends : e.Finishes) (running : k.live k.currentThread = some T)
    (live : ∀ t, k'.live t =
      if t = k.currentThread then none else (k.live t).map (wakeEffect T.parent t)) :
    ProcStep k e k'

/-- What a step does to the address spaces and their swap files. -/
inductive SpaceStep (k : Kernel) : Event → Kernel → Prop
  | paged {e k'}
    (noexec : ∀ filename junk fire, e = .exec filename junk fire → k.exe filename = none)
    (fixed : ∀ s, (k'.space s).map AddrSpace.fixed = (k.space s).map AddrSpace.fixed)
    (dir : k'.hostDir = k.hostDir) (next : k'.nextSpace = k.nextSpace)
    (ids : k'.threadID = k.threadID)
    (grows : ∀ i, (k.hostData i).length ≤ (k'.hostData i).length) : SpaceStep k e k'
  | built {filename junk fire x T numPages i k'} (opens : k.exe filename = some x)
    (running : k.live k.currentThread = some T)
    (size : pagesNeeded (NoffHeader.decode x.bytes) = .ok numPages)
    (space : k'.space = Function.update k.space k.nextSpace
      (some (.new x numPages junk i (swapName T.ID))))
    (next : k'.nextSpace = k.nextSpace + 1) : SpaceStep k (.exec filename junk fire) k'
  | deleted {e s S k'} (ends : e.Finishes) (running : k.spaceOf k.currentThread = some s)
    (live : k.space s = some S) (space : k'.space = Function.update k.space s none)
    (dir : k'.hostDir = Function.update k.hostDir S.swapfilename none)
    (next : k'.nextSpace = k.nextSpace) (ids : k'.threadID = k.threadID)
    (data : k'.hostData = k.hostData) : SpaceStep k e k'

variable {k k' : Kernel} {n : Next} {e : Event}

theorem MemoryOnly.loc (h : MemoryOnly k k') : Local k k' := by
  refine ⟨(congrArg settled h.rest :), fun t _ => ?_, h.fixed, h.grows⟩
  rw [show k'.cont = k.cont from (congrArg Kernel.cont h.rest :)]

theorem Local.trans {k'' : Kernel} (h : Local k k') (h' : Local k' k'') : Local k k'' := by
  have hcur : k'.currentThread = k.currentThread := (congrArg Kernel.currentThread h.rest :)
  exact ⟨h'.rest.trans h.rest, fun t ht => (h'.conts t (hcur ▸ ht)).trans (h.conts t ht),
    fun s => (h'.fixed s).trans (h.fixed s), fun i => Nat.le_trans (h.grows i) (h'.grows i)⟩

theorem Local.of_eq (hr : k'.settled = k.settled) (hc : k'.cont = k.cont)
    (hs : k'.space = k.space) (hd : k'.hostData = k.hostData) : Local k k' :=
  ⟨hr, fun t _ => by rw [hc], fun s => by rw [hs], fun i => Nat.le_of_eq (by rw [hd])⟩

theorem Local.goTo (h : Local k k') (c : Cont) : Local k (k'.goTo c) := by
  have hcur : k'.currentThread = k.currentThread := (congrArg Kernel.currentThread h.rest :)
  refine ⟨h.rest, fun t ht => ?_, h.fixed, h.grows⟩
  rw [← h.conts t ht]
  exact Function.update_of_ne (hcur ▸ ht) _ _

theorem Local.refl (k : Kernel) : Local k k := .of_eq rfl rfl rfl rfl

theorem Local.live (h : Local k k') : k'.live = k.live := by
  funext t
  unfold Kernel.live
  rw [show k'.threadToBeDestroyed = k.threadToBeDestroyed from
      (congrArg threadToBeDestroyed h.rest :),
    show k'.thread = k.thread from (congrArg Kernel.thread h.rest :)]

theorem pageFault_local {addr : BitVec 32} {random : Nat} (h : k.pageFault addr random = .ok k') :
    Local k k' := by
  obtain ⟨s, f, k1, -, hsel, hbranch⟩ := pageFault_cases h
  have hraise : Local k (k.raise addr) := .of_eq rfl rfl rfl rfl
  have hsel := hraise.trans (selectPage_memoryOnly hsel).1.loc
  rcases hbranch with ⟨-, rfl⟩ | ⟨-, hfill⟩
  · have happend : Local k1 (k1.appendPage f) := .of_eq rfl rfl rfl rfl
    exact (hsel.trans happend).goTo _
  · exact hsel.trans (fillPage_memoryOnly hfill).loc

theorem lock_local {fire : Bool} (h : k.lock fire = .ok (k', n)) : Local k k' := by
  obtain ⟨v, f, c, -, ⟨rfl, -⟩ | ⟨rfl, -⟩⟩ := lock_cases h
  · exact .of_eq rfl rfl rfl rfl
  · have htake : Local k (k.lockTake f) := .of_eq rfl rfl rfl rfl
    exact htake.goTo _

theorem load_local {fire : Bool} (h : k.load fire = .ok (k', n)) : Local k k' := by
  obtain ⟨v, f, c, s, k1, -, -, hfill, rfl, -⟩ := load_cases h
  obtain ⟨st, r, l, hV⟩ := k1.lockV_eq f
  rw [hV]
  have hV : Local k1 { k1 with status := st, readyList := r, pageLock := l } :=
    .of_eq rfl rfl rfl rfl
  exact ((fillPage_memoryOnly hfill).loc.trans hV).goTo _

/-- What `loadPage` changes besides memory and the frame tables. -/
theorem loadPage_unpaged {s : SpacePtr} {addr : BitVec 32} {random : Nat}
    (h : k.loadPage s addr random = .ok k') :
    ∃ st r l, k'.unpaged = { k with status := st, readyList := r, pageLock := l }.unpaged := by
  obtain ⟨f, k1, hsel, hbranch⟩ := loadPage_cases h
  have hm := (selectPage_memoryOnly hsel).1.rest
  rcases hbranch with ⟨-, -, k2, hfill, rfl⟩ | ⟨-, h⟩
  · obtain ⟨st, r, l, hV⟩ := k2.lockV_eq f
    have hm2 := (fillPage_memoryOnly hfill).rest
    let relock (x : Kernel) : Kernel := { x with status := st, readyList := r, pageLock := l }
    have h2 : relock k2.unpaged = relock k1.unpaged := (congrArg relock hm2 :)
    rw [hV]
    exact ⟨st, r, l, h2.trans (congrArg relock hm)⟩
  · exact ⟨k.status, k.readyList, k.pageLock, (fillPage_memoryOnly h).rest.trans hm⟩

/-- `loadPage` only changes page tables and flags of the spaces. -/
theorem loadPage_fixed {s : SpacePtr} {addr : BitVec 32} {random : Nat}
    (h : k.loadPage s addr random = .ok k') (s' : SpacePtr) :
    (k'.space s').map AddrSpace.fixed = (k.space s').map AddrSpace.fixed := by
  obtain ⟨f, k1, hsel, hbranch⟩ := loadPage_cases h
  have hm := (selectPage_memoryOnly hsel).1.fixed s'
  rcases hbranch with ⟨-, -, k2, hfill, rfl⟩ | ⟨-, h⟩
  · obtain ⟨st, r, l, hV⟩ := k2.lockV_eq f
    rw [hV]
    exact ((fillPage_memoryOnly hfill).fixed s').trans hm
  · exact ((fillPage_memoryOnly h).fixed s').trans hm

theorem join_target (hi : k.Inv) (ha : k.AtHome) (h : k.join = (k', n)) :
    k.joinTarget = none ∧ k' = k ∧ n = .stay ∨ ∃ c, k.joinTarget = some c ∧ n = .sleep ∧
      k' = { k with thread := fun x => (k.thread x).map (joinEffect k.currentThread c x) } := by
  obtain ⟨T, hT, hTj⟩ := hi.running
  rw [← ha.thread_eq] at hT
  rcases k.join_cases with hj | ⟨c, k1, hj, hid, hfind, -, hk1⟩
  · left
    refine ⟨?_, ?_⟩
    · -- the running thread is not joined, so only a missing target keeps it awake
      unfold joinTarget
      split
      · rename_i hid
        cases hfind : k.activeThreads.reverse.find? (k.hasID (k.registers 4).toInt) with
        | none => rfl
        | some c =>
          unfold join at hj
          dsimp only at hj
          rw [if_neg (Int.not_lt.mpr hid), getID_eq, hfind, hT, Option.map_some, hTj] at hj
          have hn := (Prod.mk.inj hj).2
          cases hn
      · rfl
    · rw [hj] at h
      cases h
      exact ⟨rfl, rfl⟩
  · right
    rw [hj] at h
    cases h
    refine ⟨c, ?_, rfl, hk1⟩
    unfold joinTarget
    rw [if_pos hid]
    exact hfind

theorem act_acted (hi : k.Inv) (h : k.act e = .ok (k', n)) : k.Acted e k' := by
  cases acts_of_act h with
  | instr _ h1 =>
    exact .moved ((accesses_memoryOnly h1).loc.trans (.of_eq rfl rfl rfl rfl)) nofun nofun
  | tick _ => exact .moved (.refl k) nofun nofun
  | fault _ _ h1 => exact .moved (pageFault_local h1) nofun nofun
  | lock h => exact .moved (lock_local h) nofun nofun
  | load h => exact .moved (load_local h) nofun nofun
  | trap _ =>
    have hregs (r : Registers) : Local k { k with registers := r } := .of_eq rfl rfl rfl rfl
    exact .moved ((hregs _).goTo .call) nofun nofun
  | copy _ h1 => exact .moved (access_memoryOnly h1).loc nofun nofun
  | @ret result _ =>
    cases result with
    | none => exact .moved ((Local.refl k).goTo .user) nofun nofun
    | some r =>
      have hwrite : Local k (k.writeRegister 2 r) := .of_eq rfl rfl rfl rfl
      exact .moved (hwrite.goTo .user) nofun nofun
  | exec hc h =>
    obtain ⟨hi', ha'⟩ := hi.back hc
    rcases exec_cases hi' ha' h with ⟨hnone, rfl, -⟩ | ⟨x, k1, hopens, hnew, -, rfl⟩
    · refine .moved ((Local.refl k).goTo .user) nofun fun _ _ _ he => ?_
      cases he
      exact hnone
    · exact .built hopens hnew
  | join hc h =>
    obtain ⟨hi', ha'⟩ := hi.back hc
    rcases join_target hi' ha' h with ⟨hnone, rfl, -⟩ | ⟨c, hsome, -, rfl⟩
    · exact .moved ((Local.refl k).goTo .user) (fun _ => hnone) nofun
    · exact .joined hsome
  | yield _ => exact .moved ((Local.refl k).goTo .user) nofun nofun
  | exit hc h1 => exact .ended (r := k.registers) trivial (hi.atHome_of_atUser (.inr hc)) h1
  | fatal hu h1 => exact .ended trivial (hi.atHome_of_atUser hu) h1
  | enable _ => exact .moved ((Local.refl k).goTo .enabled) nofun nofun
  | create _ h1 => exact .created h1

/-! ## The live threads -/

theorem step_procStep (hi : k.Inv) (h : k.step e = .ok k') : k.ProcStep e k' := by
  obtain ⟨⟨k1, n⟩, hact, h⟩ := bind_eq_ok.mp h
  have hlive : k'.live = k1.live := (dispatch_frame h).2.1
  obtain ⟨T, hT, hTj⟩ := hi.running
  cases act_acted hi hact with
  | moved hl hn => exact .same (hlive.trans hl.live) hn
  | built hopens hnew =>
    refine .spawn fun t => ?_
    rw [hlive]
    have hp : (k.goTo .user).Processes :=
      hi.procs.transfer (.of_eq rfl rfl rfl rfl rfl rfl fun _ => rfl)
    exact (exec_spawned (r := BitVec.ofNat 32 k.threadID) hnew).1.live hp t
  | joined ht => exact .join ht fun t => by rw [hlive]; exact live_map (k.goTo .user) _ t
  | @ended _ r _ he ha ht =>
    have hr : { k with registers := r }.Inv := hi.registers r (by simp)
    refine .finish he hT fun t => ?_
    rw [hlive]
    exact (hr.procs.terminate hT hTj ha.dying ht).2 t
  | created hc =>
    obtain ⟨_, _, -, -, -, hl, -⟩ := create_eq_ok hc
    exact .same (hlive.trans hl) nofun

/-! ## The address spaces -/

theorem step_spaceStep (hi : k.Inv) (h : k.step e = .ok k') : k.SpaceStep e k' := by
  obtain ⟨⟨k1, n⟩, hact, h⟩ := bind_eq_ok.mp h
  have hrest := (dispatch_frame h).1
  have hspace : k'.space = k1.space := (congrArg Kernel.space hrest :)
  have hdir : k'.hostDir = k1.hostDir := (congrArg hostDir hrest :)
  have hdata : k'.hostData = k1.hostData := (congrArg hostData hrest :)
  have hnext : k'.nextSpace = k1.nextSpace := (congrArg Kernel.nextSpace hrest :)
  have hids : k'.threadID = k1.threadID := (congrArg Kernel.threadID hrest :)
  obtain ⟨T, hT, hTj⟩ := hi.running
  cases act_acted hi hact with
  | moved hl _ hexec =>
    exact .paged hexec (by rw [hspace]; exact hl.fixed)
      (hdir.trans (congrArg hostDir hl.rest :)) (hnext.trans (congrArg Kernel.nextSpace hl.rest :))
      (hids.trans (congrArg Kernel.threadID hl.rest :)) (by rw [hdata]; exact hl.grows)
  | @built _ _ _ x k2 hopens hnew =>
    obtain ⟨T', numPages, i, hT', -, hsize, -, hk2⟩ := newAddrSpace_eq_ok hnew
    have hTT : T' = T := Option.some.inj (hT'.symm.trans (live_eq_some hT).2)
    subst hTT
    have hspace2 : k2.space = Function.update k.space k.nextSpace
        (some (.new x numPages _ i (swapName T'.ID))) := (congrArg Kernel.space hk2 :)
    have hnext2 : k2.nextSpace = k.nextSpace + 1 := (congrArg Kernel.nextSpace hk2 :)
    exact .built hopens hT hsize (hspace.trans hspace2) (hnext.trans hnext2)
  | joined =>
    exact .paged nofun (by rw [hspace]; exact fun _ => rfl) hdir hnext hids
      (by rw [hdata]; exact fun _ => Nat.le_refl _)
  | @ended _ r _ he ha ht =>
    rw [← ha.thread_eq] at hT
    obtain ⟨s, hs, -⟩ := hi.procs.space (ha.thread_eq ▸ hT)
    obtain ⟨S, m, st, hS, -, hk1⟩ := terminate_eq_ok (k := { k with registers := r }) hT hs ht
    refine .deleted he (s := s) (S := S) ?_ hS ?_ ?_ ?_ ?_ ?_
    · unfold spaceOf
      rw [hT]
      exact hs
    · rw [hspace, hk1]
    · rw [hdir, hk1]
    · rw [hnext, hk1]
    · rw [hids, hk1]
    · rw [hdata, hk1]
  | created hc =>
    obtain ⟨_, _, -, -, hk, -⟩ := create_eq_ok hc
    refine .paged nofun ?_ ?_ ?_ ?_ ?_
    · rw [hspace, hk]; exact fun _ => rfl
    · rw [hdir, hk]; rfl
    · rw [hnext, hk]; rfl
    · rw [hids, hk]; rfl
    · rw [hdata, hk]; exact fun _ => Nat.le_refl _

/-- The replacement policy is set once. -/
theorem step_swapChoice (hi : k.Inv) (h : k.step e = .ok k') : k'.swapChoice = k.swapChoice := by
  obtain ⟨⟨k1, n⟩, hact, h⟩ := bind_eq_ok.mp h
  have hrest : k'.swapChoice = k1.swapChoice := (congrArg swapChoice (dispatch_frame h).1 :)
  rw [hrest]
  obtain ⟨T, hT, -⟩ := hi.running
  cases act_acted hi hact with
  | moved hl => exact (congrArg swapChoice hl.rest :)
  | built _ hnew =>
    obtain ⟨_, _, _, -, -, -, -, hk⟩ := newAddrSpace_eq_ok hnew
    exact (congrArg swapChoice hk :)
  | joined => rfl
  | @ended _ r _ _ _ ht =>
    obtain ⟨s, hs, -⟩ := hi.procs.space hT
    obtain ⟨_, _, _, -, -, hk⟩ :=
      terminate_eq_ok (k := { k with registers := r }) (live_eq_some hT).2 hs ht
    exact (congrArg swapChoice hk :)
  | created hc =>
    obtain ⟨_, _, -, -, hk, -⟩ := create_eq_ok hc
    exact (congrArg swapChoice hk :)

end Kernel
end Nachos

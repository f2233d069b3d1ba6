import Nachos.Userprog.Processes

/-! The invariant of the kernel: what holds whenever the running thread is about
to begin its next stretch of code. `act_paused` shows that every event keeps it
up to the dispatch, `Paused.dispatch` carries it over the context switch, and
`Reachable.inv` to every state a run can get to. -/

namespace Nachos
open Lib

namespace Cont

/-- The frame a suspended fault holds exists. -/
def Framed : Cont → Prop
  | .locking _ f _ => f < numPhysPages
  | .locked _ f _ => f < numPhysPages
  | _ => True

/-- A new thread that has not reached its program yet. -/
def Booting (c : Cont) : Prop := c = .threadRoot ∨ c = .enabled

end Cont

namespace Kernel

/-- Nobody is waiting to be destroyed, and the machine translates through the
running thread's own page table. -/
structure AtHome (k : Kernel) : Prop where
  dying : k.threadToBeDestroyed = none
  table : ∃ s S, k.spaceOf k.currentThread = some s ∧ k.pageTable = some s ∧
    k.space s = some S ∧ k.pageTableSize = S.numPages

/-- What holds at the end of a stretch of kernel code, before the dispatch. -/
structure Paused (k : Kernel) (n : Next) : Prop where
  procs : k.Processes
  seated : k.Seated (k.onCPU n)
  framed : ∀ t, (k.cont t).Framed
  home : n ≠ .sleep → ¬ k.here.Booting → k.AtHome

/-- What holds between two events. -/
def Inv (k : Kernel) : Prop := k.Paused .stay

variable {k k' : Kernel} {n : Next}

theorem Inv.running (hi : k.Inv) : ∃ T, k.live k.currentThread = some T ∧ T.isJoined = false :=
  hi.seated.running

theorem Inv.atHome (hi : k.Inv) (h : ¬ k.here.Booting) : k.AtHome := hi.home (by simp) h

/-! ## Dispatch -/

theorem Paused.dispatch (hp : k.Paused n) (h : k.dispatch n = .ok k') : k'.Inv := by
  have hsame := dispatch_sameProcesses h
  have hprocs := hp.procs.transfer hsame
  have hseat : k'.Seated (some k'.currentThread) := hp.seated.dispatch h
  have hcont : k'.cont = k.cont := (congrArg Kernel.cont (dispatch_frame h).1 :)
  refine ⟨hprocs, hseat, by rw [hcont]; exact hp.framed, fun _ hb => ?_⟩
  rcases dispatch_cases h with ⟨hn, rfl | ⟨-, rfl⟩⟩ | ⟨next, rest, regs, st, -, -, hs⟩
  · exact hp.home hn hb
  · obtain ⟨hd, ht⟩ := hp.home hn hb
    exact ⟨hd, ht⟩
  · have hroot : k.cont next ≠ .threadRoot := by
      intro he
      apply hb
      left
      unfold here
      rw [hcont, hs.current]
      exact he
    obtain ⟨T, hT, -⟩ := hseat.running
    rw [hs.current, hs.live] at hT
    obtain ⟨s, hsp, -⟩ := hp.procs.space hT
    -- the thread that resumes is alive, so it is not the one destroyed on the way
    have hspace : k.spaceOf next = some s := (spaceOf_of_live hT).trans hsp
    obtain ⟨hd, htable⟩ := hs.resumed hroot
    obtain ⟨-, hpt, S, hS, hsize⟩ := htable s hspace (live_eq_some hT).1
    refine ⟨hd, s, S, ?_, hpt, ?_, hsize⟩
    · have hlive : k'.live next = some T := by rw [hs.live]; exact hT
      rw [hs.current, spaceOf_of_live hlive]
      exact hsp
    · rw [show k'.space = k.space from (congrArg Kernel.space hs.rest :)]
      exact hS

/-! ## Steps that move no thread -/

theorem MemoryOnly.atHome (h : MemoryOnly k k') (ha : k.AtHome) : k'.AtHome := by
  obtain ⟨hd, s, S, hsp, hpt, hS, hsize⟩ := ha
  obtain ⟨S', hS', hf⟩ := h.space_of hS
  have hthread : k'.thread = k.thread := (congrArg Kernel.thread h.rest :)
  have hcur : k'.currentThread = k.currentThread := (congrArg Kernel.currentThread h.rest :)
  refine ⟨(congrArg threadToBeDestroyed h.rest :).trans hd, s, S', ?_,
    (congrArg Kernel.pageTable h.rest :).trans hpt, hS', ?_⟩
  · unfold spaceOf at hsp ⊢
    rw [hthread, hcur]
    exact hsp
  · rw [show k'.pageTableSize = k.pageTableSize from (congrArg Kernel.pageTableSize h.rest :),
      hsize]
    exact (congrArg AddrSpace.numPages hf :).symm

theorem framed_goTo {c : Cont} (hf : ∀ t, (k.cont t).Framed) (hc : c.Framed) (t : ThreadPtr) :
    ((k.goTo c).cont t).Framed := by
  unfold goTo
  dsimp only
  rw [Function.update_apply]
  split
  · exact hc
  · exact hf t

@[simp] theorem here_goTo (k : Kernel) (c : Cont) : (k.goTo c).here = c := by
  simp [goTo, here]

/-- A step that leaves threads, queues and the CPU alone. -/
theorem Inv.stays (hi : k.Inv) (hs : SameProcesses k k') (hr : k'.readyList = k.readyList)
    (hl : k'.pageLock = k.pageLock) (hc : k'.currentThread = k.currentThread)
    (hf : ∀ t, (k'.cont t).Framed) (hh : ¬ k'.here.Booting → k'.AtHome) (hn : n ≠ .sleep) :
    k'.Paused n := by
  refine ⟨hi.procs.transfer hs, ?_, hf, fun _ => hh⟩
  have := hi.seated.congr hr hl hs.live
  unfold onCPU at this ⊢
  rw [if_neg hn, hc]
  exact this

theorem Inv.memoryOnly (hi : k.Inv) (h : MemoryOnly k k') (hn : n ≠ .sleep) : k'.Paused n := by
  have hcont : k'.cont = k.cont := (congrArg Kernel.cont h.rest :)
  have hcur : k'.currentThread = k.currentThread := (congrArg Kernel.currentThread h.rest :)
  refine hi.stays h.sameProcesses (congrArg Kernel.readyList h.rest :)
    (congrArg Kernel.pageLock h.rest :) hcur (by rw [hcont]; exact hi.framed) (fun hb => ?_) hn
  refine h.atHome (hi.atHome ?_)
  unfold here at hb ⊢
  rwa [hcont, hcur] at hb

/-- Registers and the running thread's place in the code may change. -/
theorem Inv.goTo (hi : k.Inv) (ha : k.AtHome) (r : Registers) {c : Cont} (hc : c.Framed)
    (hn : n ≠ .sleep) : ({ k with registers := r }.goTo c).Paused n := by
  refine hi.stays (.of_eq rfl rfl rfl rfl rfl rfl fun _ => rfl) rfl rfl rfl
    (framed_goTo hi.framed hc) (fun _ => ?_) hn
  exact ⟨ha.dying, ha.table⟩

theorem Inv.toUser (hi : k.Inv) (ha : k.AtHome) : (k.goTo .user).Inv :=
  hi.goTo ha k.registers (c := .user) trivial (by simp)

theorem Inv.registers (hi : k.Inv) (r : Registers) (hn : n ≠ .sleep) :
    { k with registers := r }.Paused n :=
  hi.stays (.of_eq rfl rfl rfl rfl rfl rfl fun _ => rfl) rfl rfl rfl hi.framed
    (fun hb => ⟨(hi.atHome hb).dying, (hi.atHome hb).table⟩) hn

/-! ## Page locks -/

theorem waiting_readyToRun (k : Kernel) (t x : ThreadPtr) :
    (k.readyToRun t).waiting x = k.waiting x + if x = t then 1 else 0 := by
  unfold waiting readyToRun setStatus
  rw [List.count_append, List.count_singleton]
  simp only [beq_iff_eq, eq_comm (a := t)]
  omega

theorem sameProcesses_setLock (k : Kernel) (f : Nat) (l : Semaphore) :
    SameProcesses k (k.setLock f l) := .of_eq rfl rfl rfl rfl rfl rfl fun _ => rfl

theorem Seated.lockWait {f : Nat} (hs : k.Seated (some k.currentThread)) (hf : f < numPhysPages) :
    (k.lockWait f).Seated none := by
  intro t
  have hseat := hs t
  have hw := waiting_setLock (k := k) hf
    ⟨(k.pageLock f).value, (k.pageLock f).queue ++ [k.currentThread]⟩ t
  rw [List.count_append, List.count_singleton] at hw
  simp only [beq_iff_eq, Option.some.injEq] at hw hseat
  rw [if_neg (by simp), Kernel.lockWait, (sameProcesses_setLock k f _).live, ← hseat]
  omega

theorem Seated.lockTake {f : Nat} {cpu : Option ThreadPtr} (hs : k.Seated cpu)
    (hf : f < numPhysPages) : (k.lockTake f).Seated cpu := by
  intro t
  have hw := waiting_setLock (k := k) hf ⟨(k.pageLock f).value - 1, (k.pageLock f).queue⟩ t
  rw [Kernel.lockTake, (sameProcesses_setLock k f _).live, ← hs t]
  dsimp only at hw
  omega

/-- A woken thread moves from the queue of the lock to the ready list. -/
theorem Seated.lockV {f : Nat} {cpu : Option ThreadPtr} (hs : k.Seated cpu)
    (hf : f < numPhysPages) : (k.lockV f).Seated cpu := by
  intro t
  cases hq : (k.pageLock f).queue with
  | nil =>
    have hw := waiting_setLock (k := k) hf ⟨(k.pageLock f).value + 1, []⟩ t
    rw [hq] at hw
    simp only [Kernel.lockV, hq]
    rw [(sameProcesses_setLock k f _).live, ← hs t]
    dsimp only at hw
    omega
  | cons x rest =>
    simp only [Kernel.lockV, hq]
    have hw := waiting_setLock (k := k.readyToRun x) hf ⟨(k.pageLock f).value + 1, rest⟩ t
    rw [waiting_readyToRun, show (k.readyToRun x).pageLock = k.pageLock from rfl, hq,
      List.count_cons] at hw
    simp only [beq_iff_eq, eq_comm (a := x)] at hw
    rw [(sameProcesses_setLock _ f _).live, show (k.readyToRun x).live = k.live from rfl, ← hs t]
    omega

theorem lockV_eq (k : Kernel) (f : Nat) : ∃ st r l, k.lockV f = { k with
    status := st, readyList := r, pageLock := l } := by
  unfold lockV
  split
  · exact ⟨k.status, k.readyList, _, rfl⟩
  · exact ⟨_, _, _, rfl⟩

theorem Inv.framed_here {c : Cont} (hi : k.Inv) (hhere : k.here = c) : c.Framed := by
  subst hhere
  exact hi.framed k.currentThread

theorem lock_paused {fire : Bool} (hi : k.Inv) (h : k.lock fire = .ok (k', n)) : k'.Paused n := by
  obtain ⟨v, f, c, hhere, hbranch⟩ := lock_cases h
  have hf : f < numPhysPages := hi.framed_here hhere
  have ha : k.AtHome := hi.atHome (by rw [hhere]; rintro (h | h) <;> cases h)
  obtain ⟨rfl, rfl⟩ | ⟨rfl, rfl⟩ := hbranch
  · exact ⟨hi.procs.transfer (sameProcesses_setLock k f _), hi.seated.lockWait hf, hi.framed,
      fun hn => absurd rfl hn⟩
  · exact ⟨hi.procs.transfer (.of_eq rfl rfl rfl rfl rfl rfl fun _ => rfl),
      (hi.seated.lockTake hf).congr rfl rfl rfl, framed_goTo (k := k.lockTake f) hi.framed hf,
      fun _ _ => ⟨ha.dying, ha.table⟩⟩

theorem load_paused {fire : Bool} (hi : k.Inv) (h : k.load fire = .ok (k', n)) : k'.Paused n := by
  obtain ⟨v, f, c, s, k1, hhere, -, hfill, rfl, rfl⟩ := load_cases h
  have hf : f < numPhysPages := hi.framed_here hhere
  have ha : k.AtHome := hi.atHome (by rw [hhere]; rintro (h | h) <;> cases h)
  have hm := fillPage_memoryOnly hfill
  have h1 : k1.Inv := hi.memoryOnly hm (by simp)
  have ha1 : k1.AtHome := hm.atHome ha
  have hseat := h1.seated.lockV hf
  obtain ⟨st, r, l, hV⟩ := k1.lockV_eq f
  generalize k1.lockV f = k2 at *
  subst hV
  refine ⟨h1.procs.transfer (.of_eq rfl rfl rfl rfl rfl rfl fun _ => rfl),
    hseat.congr rfl rfl rfl, framed_goTo h1.framed ?_, fun _ _ => ⟨ha1.dying, ha1.table⟩⟩
  cases c <;> trivial

/-! ## Exec, Join, termination and new threads -/

theorem AtHome.thread_eq (ha : k.AtHome) : k.thread = k.live := by
  funext x
  unfold Kernel.live
  rw [ha.dying]
  rfl

/-- `SC_Exec` does nothing if the file does not open; otherwise it builds a
space and starts a thread in it. -/
theorem exec_cases {filename : FileName} {junk : Nat → Bool} {fire : Bool} (hi : k.Inv)
    (ha : k.AtHome) (h : k.exec filename junk fire = .ok (k', n)) :
    (k.exe filename = none ∧ k' = k ∧ n = .stay) ∨
    ∃ x k1, k.exe filename = some x ∧ k.newAddrSpace x junk = .ok (k.nextSpace, k1) ∧
      n = .tick fire ∧ k' = ((k1.writeRegister 2 (BitVec.ofNat 32 k.threadID)).newThread
        k.nextSpace).readyToRun k.nextThread := by
  unfold exec at h
  split at h
  · cases h
    exact .inl ⟨‹_›, rfl, rfl⟩
  · rename_i x hx
    obtain ⟨⟨s, k1⟩, hnew, h⟩ := bind_eq_ok.mp h
    obtain ⟨T, numPages, i, hT, rfl, -, -, hk1⟩ := newAddrSpace_eq_ok hnew
    have hthread : k1.thread k1.currentThread = some T := by rw [hk1]; exact hT
    rw [ha.thread_eq] at hT
    refine .inr ⟨x, k1, hx, hnew, ?_⟩
    unfold startChild at h
    dsimp only at h
    rw [hthread] at h
    dsimp only at h
    rw [hi.procs.kill hT] at h
    simp only [Bool.false_eq_true, if_false] at h
    cases h
    have hid : k1.threadID = k.threadID := by rw [hk1]
    have hnt : k1.nextThread = k.nextThread := by rw [hk1]
    rw [hid, hnt]
    exact ⟨rfl, rfl⟩

theorem exec_spawned {x : NoffFile} {junk : Nat → Bool} {k1 : Kernel} {r : BitVec 32}
    (h : k.newAddrSpace x junk = .ok (k.nextSpace, k1)) :
    let k' := ((k1.writeRegister 2 r).newThread k.nextSpace).readyToRun k.nextThread
    Spawned k k' ∧ k'.cont = Function.update k.cont k.nextThread .threadRoot ∧
      k'.readyList = k.readyList ++ [k.nextThread] ∧ k'.pageLock = k.pageLock ∧
      k'.currentThread = k.currentThread ∧ k'.pageTable = k.pageTable ∧
      k'.pageTableSize = k.pageTableSize ∧ k'.registers = k.registers.write 2 r := by
  obtain ⟨T, numPages, i, hT, -, -, -, rfl⟩ := newAddrSpace_eq_ok h
  exact ⟨⟨rfl, rfl, rfl, rfl, rfl, rfl, ⟨_, rfl⟩⟩, rfl, rfl, rfl, rfl, rfl, rfl, rfl⟩

theorem exec_paused {filename : FileName} {junk : Nat → Bool} {fire : Bool} (hi : k.Inv)
    (ha : k.AtHome) (h : k.exec filename junk fire = .ok (k', n)) : k'.Paused n := by
  rcases exec_cases hi ha h with ⟨-, rfl, rfl⟩ | ⟨x, k1, -, hnew, rfl, hk'⟩
  · exact hi
  · obtain ⟨hs, hcont, hready, hlock, hcur, hpt, hsize, -⟩ :=
      exec_spawned (r := BitVec.ofNat 32 k.threadID) hnew
    rw [← hk'] at hs hcont hready hlock hcur hpt hsize
    obtain ⟨T, hT, -⟩ := hi.running
    refine ⟨hi.procs.spawned hs, fun t => ?_, fun t => ?_, fun _ _ => ?_⟩
    · have hseat := hi.seated t
      have hnone := hi.seated k.nextThread
      rw [hi.procs.live_nextThread] at hnone
      unfold onCPU at hseat hnone ⊢
      unfold waiting at *
      rw [hcur, hlock, hready, hs.live hi.procs, List.count_append, List.count_singleton]
      by_cases ht : t = k.nextThread
      · subst ht
        simp only [seats, child, beq_self_eq_true, if_true, Bool.false_eq_true, if_false] at *
        simp only [reduceCtorEq, if_false] at *
        omega
      · simp only [ht, beq_iff_eq, if_false, eq_comm (a := k.nextThread)]
        simpa using hseat
    · rw [hcont, Function.update_apply]
      split
      · trivial
      · exact hi.framed t
    · obtain ⟨s, S, hsp, htab, hS, hn⟩ := ha.table
      obtain ⟨S', hS'⟩ := hs.spaces
      have hne : s ≠ k.nextSpace := by
        rintro rfl
        rw [hi.procs.freshSpace _ (Nat.le_refl _)] at hS
        cases hS
      refine ⟨hs.dying.trans ha.dying, s, S, ?_, hpt.trans htab, ?_, hsize.trans hn⟩
      · unfold spaceOf at hsp ⊢
        rw [hcur, hs.thread, Function.update_of_ne (hi.procs.live_ne hT)]
        exact hsp
      · rw [hS', Function.update_of_ne hne]
        exact hS

theorem Seated.toSleep (hs : k.Seated (some k.currentThread)) (hr : k'.readyList = k.readyList)
    (hl : k'.pageLock = k.pageLock) (hcur : seats (k'.live k.currentThread) = 0)
    (hother : ∀ t, t ≠ k.currentThread → seats (k'.live t) = seats (k.live t)) :
    k'.Seated none := by
  intro t
  have hseat := hs t
  rw [waiting_congr hr hl]
  by_cases ht : t = k.currentThread
  · subst ht
    have := seats_le_one (k.live k.currentThread)
    rw [hcur]
    simp only [if_true] at hseat
    simp only [reduceCtorEq, if_false]
    omega
  · rw [hother t ht, ← hseat]
    simp [Ne.symm ht]

theorem join_paused (hi : k.Inv) (h : k.join = (k', n)) : k'.Paused n := by
  rcases k.join_cases with hj | ⟨c, k1, hj, -, -, -, hk1⟩
  · rw [hj] at h
    cases h
    exact hi
  · rw [hj] at h
    cases h
    obtain ⟨T, hT, hTj⟩ := hi.running
    refine ⟨hi.procs.join hT hTj hk1, ?_, by subst hk1; exact hi.framed, fun hn => absurd rfl hn⟩
    refine hi.seated.toSleep (by subst hk1; rfl) (by subst hk1; rfl) ?_ fun t ht => ?_
    · rw [hk1, live_map, hT]
      simp [seats, joinEffect]
    · rw [hk1, live_map]
      cases hX : k.live t with
      | none => rfl
      | some X => simp [seats, joinEffect, ht]

theorem terminate_paused (hi : k.Inv) (ha : k.AtHome) (h : k.terminate = .ok k') :
    k'.Paused .sleep := by
  obtain ⟨T, hT, hTj⟩ := hi.running
  obtain ⟨hprocs, hlive⟩ := hi.procs.terminate hT hTj ha.dying h
  obtain ⟨s, hs, -⟩ := hi.procs.space hT
  obtain ⟨S, m, st, -, -, hk⟩ := terminate_eq_ok (by rw [ha.thread_eq]; exact hT) hs h
  refine ⟨hprocs, fun t => ?_, by subst hk; exact hi.framed, fun hn => absurd rfl hn⟩
  have hseat := hi.seated t
  have hready : k'.readyList = T.parent.toList ++ k.readyList := by subst hk; rfl
  have hlock : k'.pageLock = k.pageLock := by subst hk; rfl
  unfold onCPU at hseat ⊢
  unfold waiting at *
  rw [hlive, hready, hlock, List.count_append]
  simp only [reduceCtorEq, if_false, if_true] at hseat ⊢
  by_cases ht : t = k.currentThread
  · -- the finishing thread is not the one it wakes: that one is joined
    subst ht
    have hself : T.parent ≠ some k.currentThread := by
      intro he
      obtain ⟨P, hP, hPj⟩ := hi.procs.parent hT he
      rw [hT] at hP
      cases hP
      rw [hTj] at hPj
      cases hPj
    have hcount : T.parent.toList.count k.currentThread = 0 :=
      List.count_eq_zero.mpr fun hm => hself (Option.mem_toList.mp hm)
    rw [if_pos rfl]
    simp only [hT, seats, hTj, Bool.false_eq_true, if_false, if_true] at hseat ⊢
    omega
  · simp only [if_neg ht, Option.some.injEq, Ne.symm ht, if_false] at hseat ⊢
    by_cases hw : T.parent = some t
    · -- the joined parent gets its place back
      obtain ⟨P, hP, hPj⟩ := hi.procs.parent hT hw
      rw [hP] at hseat ⊢
      simp only [seats, hPj, if_true, Option.map_some, wakeEffect, hw, Option.toList_some,
        List.count_singleton_self, Bool.false_eq_true, if_false] at hseat ⊢
      omega
    · have hcount : T.parent.toList.count t = 0 :=
        List.count_eq_zero.mpr fun hm => hw (Option.mem_toList.mp hm)
      rw [hcount, show (k.live t).map (wakeEffect T.parent t) = k.live t by
        cases k.live t <;> simp [wakeEffect, hw]]
      omega

/-- `processCreator` sets the machine up for the new thread's own space. -/
theorem create_eq_ok (h : k.create = .ok k') :
    ∃ s S, k.spaceOf k.currentThread = some s ∧ k.space s = some S ∧
      k' = { k with registers := Registers.init S.numPages, pageTable := some s
                    pageTableSize := S.numPages, thread := k'.thread
                    threadToBeDestroyed := none } ∧
      k'.live = k.live ∧ (∀ t, k.thread t = none → k'.thread t = none) ∧
      ∀ t, k.threadToBeDestroyed ≠ some t → k'.thread t = k.thread t := by
  unfold create at h
  obtain ⟨s, hs, h⟩ := bind_eq_ok.mp h
  obtain ⟨k1, h1, h⟩ := bind_eq_ok.mp h
  unfold restoreSpace at h1
  split at h1
  · cases h1
  · rename_i S hS
    cases h1
    obtain ⟨hk, hlive, hfreed, hkept⟩ := destroyFinished_eq_ok h
    exact ⟨s, S, currentSpace_eq_ok hs, hS, hk, hlive, hfreed, hkept⟩

theorem create_paused (hi : k.Inv) (h : k.create = .ok k') : (k'.goTo .user).Paused .stay := by
  obtain ⟨s, S, hsp, hS, hk, hlive, hfreed, hkept⟩ := create_eq_ok h
  obtain ⟨T, hT, -⟩ := hi.running
  have hlive' : (k'.goTo .user).live = k.live := hlive
  have hsame : SameProcesses k (k'.goTo .user) :=
    ⟨hlive', hfreed, .inl (by rw [hk]; rfl), by rw [hk]; rfl, by rw [hk]; rfl, by rw [hk]; rfl,
      by rw [hk]; rfl, fun _ => by rw [hk]; rfl⟩
  refine hi.stays hsame (by rw [hk]; rfl) (by rw [hk]; rfl) (by rw [hk]; rfl)
    (framed_goTo (by rw [hk]; exact hi.framed) trivial) (fun _ => ?_) (by simp)
  have hcur : k.threadToBeDestroyed ≠ some k.currentThread := (live_eq_some hT).1
  refine ⟨by rw [hk]; rfl, s, S, ?_, by rw [hk]; rfl, by rw [hk]; exact hS, by rw [hk]; rfl⟩
  have hc : (k'.goTo .user).currentThread = k.currentThread := by rw [hk]; rfl
  unfold spaceOf at hsp ⊢
  rw [hc, show (k'.goTo .user).thread k.currentThread = k.thread k.currentThread from hkept _ hcur]
  exact hsp

/-! ## Events and runs -/

theorem not_booting_user : ¬ Cont.Booting .user := by rintro (h | h) <;> cases h

theorem not_booting_call : ¬ Cont.Booting .call := by rintro (h | h) <;> cases h

theorem Inv.atHome_of_atUser (hi : k.Inv) (h : k.atUser) : k.AtHome := by
  refine hi.atHome ?_
  rcases h with h | h <;> rw [h]
  · exact not_booting_user
  · exact not_booting_call

/-- A call may return to the program. -/
theorem Inv.back (hi : k.Inv) (hc : k.here = .call) :
    (k.goTo .user).Inv ∧ (k.goTo .user).AtHome := by
  have ha : k.AtHome := hi.atHome_of_atUser (.inr hc)
  exact ⟨hi.toUser ha, ha.dying, ha.table⟩

theorem pageFault_paused {addr : BitVec 32} {random : Nat} (hi : k.Inv) (ha : k.AtHome)
    (h : k.pageFault addr random = .ok k') : k'.Paused .stay := by
  obtain ⟨s, f, k1, -, hsel, hbranch⟩ := pageFault_cases h
  obtain ⟨hm, hf⟩ := selectPage_memoryOnly hsel
  have hraise : (k.raise addr).Inv := hi.registers _ (by simp)
  have ha' : (k.raise addr).AtHome := ⟨ha.dying, ha.table⟩
  rcases hbranch with ⟨-, rfl⟩ | ⟨-, hfill⟩
  · have hm' : MemoryOnly (k.raise addr) (k1.appendPage f) := hm.trans (.of_eq rfl rfl rfl)
    exact Inv.goTo (hraise.memoryOnly hm' (by simp)) (hm'.atHome ha') _ hf (by simp)
  · exact hraise.memoryOnly (hm.trans (fillPage_memoryOnly hfill)) (by simp)

theorem act_paused {e : Event} (hi : k.Inv) (h : k.act e = .ok (k', n)) : k'.Paused n := by
  have hhome {c : Cont} (hc : k.here = c) (hb : ¬ c.Booting) : k.AtHome :=
    hi.atHome (by rw [hc]; exact hb)
  cases acts_of_act h with
  | instr _ h1 => exact Inv.registers (hi.memoryOnly (accesses_memoryOnly h1) (by simp)) _ (by simp)
  | tick _ => exact hi.registers k.registers (by simp)
  | fault hu _ h1 => exact pageFault_paused hi (hi.atHome_of_atUser hu) h1
  | lock h => exact lock_paused hi h
  | load h => exact load_paused hi h
  | trap hu => exact hi.goTo (hhome hu not_booting_user) _ trivial (by simp)
  | copy _ h1 => exact hi.memoryOnly (access_memoryOnly h1) (by simp)
  | @ret result hc =>
    have ha := hhome hc not_booting_call
    cases result with
    | none => exact hi.goTo ha k.registers trivial (by simp)
    | some r => exact hi.goTo ha (k.registers.write 2 r) trivial (by simp)
  | exec hc h =>
    obtain ⟨hi', ha'⟩ := hi.back hc
    exact exec_paused hi' ha' h
  | join hc h => exact join_paused (hi.back hc).1 h
  | yield hc => exact hi.goTo (hhome hc not_booting_call) k.registers trivial (by simp)
  | exit hc h1 => exact terminate_paused hi (hhome hc not_booting_call) h1
  | @fatal addr _ _ hu h1 =>
    have ha := hi.atHome_of_atUser hu
    have hr : (k.raise addr).Inv := hi.registers _ (by simp)
    exact terminate_paused hr ⟨ha.dying, ha.table⟩ h1
  | enable _ =>
    refine hi.stays (.of_eq rfl rfl rfl rfl rfl rfl fun _ => rfl) rfl rfl rfl
      (framed_goTo hi.framed trivial) (fun hb => ?_) (by simp)
    rw [here_goTo] at hb
    exact absurd (.inr rfl) hb
  | create _ h1 => exact create_paused hi h1

theorem step_inv {e : Event} (hi : k.Inv) (h : k.step e = .ok k') : k'.Inv := by
  obtain ⟨⟨k1, n⟩, hact, h⟩ := bind_eq_ok.mp h
  exact (act_paused hi hact).dispatch h

end Kernel

/-! ## Boot -/

theorem boot_eq_ok {c : Config} {k : Kernel} (h : boot c = .ok k) :
    ∃ x numPages, c.exe c.program = some x ∧
      Kernel.pagesNeeded (NoffHeader.decode x.bytes) = .ok numPages ∧
      k = { c.initialize with
        thread := Function.update (fun _ => none) 0 (some ⟨0, none, false, false, some 0⟩)
        space := Function.update (fun _ => none) 0 (some (.new x numPages c.junk 0 (swapName 0)))
        nextSpace := 1
        hostDir := Function.update (fun _ => none) (swapName 0) (some 0)
        hostData := Function.update (fun _ => []) 0 []
        nextInode := 1
        registers := Registers.init numPages
        pageTable := some 0
        pageTableSize := numPages } := by
  unfold boot at h
  split at h
  · cases h
  · rename_i x hx
    obtain ⟨⟨s, k1⟩, hnew, h⟩ := bind_eq_ok.mp h
    obtain ⟨k2, hres, h⟩ := bind_eq_ok.mp h
    cases h
    obtain ⟨T, numPages, i, hT, rfl, hn, hi, rfl⟩ := Kernel.newAddrSpace_eq_ok hnew
    cases hT
    have hfile : c.initialize.createFile (swapName 0) = { c.initialize with
        hostDir := Function.update (fun _ => none) (swapName 0) (some 0)
        hostData := Function.update (fun _ => []) 0 []
        nextInode := 1 } := rfl
    rw [hfile] at hi hres
    have hi0 : i = 0 := by
      simp only [Function.update_self] at hi
      exact (Option.some.inj hi).symm
    subst hi0
    refine ⟨x, numPages, hx, hn, ?_⟩
    unfold Kernel.restoreSpace at hres
    split at hres
    · cases hres
    · rename_i S hS
      have hS' : S = .new x numPages c.junk 0 (swapName 0) := by
        simp only [Kernel.setThread, Function.update_self] at hS
        exact (Option.some.inj hS).symm
      cases hres
      subst hS'
      simp only [Kernel.setThread, Config.initialize, Function.update_self, Function.update_idem,
        Option.map_some]
      rfl

theorem boot_inv {c : Config} {k : Kernel} (h : boot c = .ok k) : k.Inv := by
  obtain ⟨x, numPages, -, -, hk⟩ := boot_eq_ok h
  -- thread 0 is the only thread and space 0 the only space
  have hthread (t : ThreadPtr) :
      k.thread t = if t = 0 then some ⟨0, none, false, false, some 0⟩ else none := by
    rw [hk]; simp only [Function.update_apply]
  have hlive : k.live = k.thread := by rw [hk]; rfl
  have hone {t : ThreadPtr} {T : Thread} (h : k.live t = some T) :
      t = 0 ∧ T = ⟨0, none, false, false, some 0⟩ := by
    rw [hlive, hthread] at h
    split at h
    · cases h; exact ⟨‹_›, rfl⟩
    · cases h
  have hspace (s : SpacePtr) :
      k.space s = if s = 0 then some (.new x numPages c.junk 0 (swapName 0)) else none := by
    rw [hk]; simp only [Function.update_apply]
  refine ⟨⟨⟨?spaceInj, ?idLt, ?idInj, ?kill⟩, ?fresh, ?dying, ?parent, ?onlyChild, ?space,
    ?owner, ?freshSpace, ?active, ?nodup⟩, ?seated, ?framed, fun _ _ => ?home⟩
  case spaceInj => intro t t' T T' s ht ht' _ _; rw [(hone ht).1, (hone ht').1]
  case idLt => intro t T ht; rw [(hone ht).2, hk]; exact Nat.one_pos
  case idInj => intro t t' T T' ht ht' _; rw [(hone ht).1, (hone ht').1]
  case kill => intro t T ht; rw [(hone ht).2]
  case fresh =>
    intro t ht
    have ht' : 1 ≤ t := by rw [hk] at ht; exact ht
    rw [hthread, if_neg (Nat.ne_of_gt ht')]
  case dying => intro y hy; rw [hk] at hy; cases hy
  case parent => intro c C p hc hp; rw [(hone hc).2] at hp; cases hp
  case onlyChild => intro c c' C C' p hc hc' _ _; rw [(hone hc).1, (hone hc').1]
  case space => intro t T ht; rw [(hone ht).2]; exact ⟨0, rfl, by rw [hspace, if_pos rfl]; rfl⟩
  case owner =>
    intro s hs
    rw [hspace] at hs
    split at hs
    · rename_i h0
      exact ⟨0, _, by rw [hlive, hthread, if_pos rfl], by rw [h0]⟩
    · cases hs
  case freshSpace =>
    intro s hs
    have hs' : 1 ≤ s := by rw [hk] at hs; exact hs
    rw [hspace, if_neg (Nat.ne_of_gt hs')]
  case active => intro t ht; rw [hk] at ht; cases ht
  case nodup => rw [hk]; exact List.nodup_nil
  case seated =>
    intro t
    have hwait : k.waiting t = 0 := by
      rw [hk]
      simp [Kernel.waiting, Config.initialize]
    rw [hwait, hlive, hthread, show k.onCPU .stay = some 0 by rw [hk]; rfl]
    by_cases ht : t = 0
    · subst ht; rfl
    · simp [ht, Ne.symm ht, Kernel.seats]
  case framed => rw [hk]; exact fun _ => trivial
  case home => rw [hk]; exact ⟨rfl, 0, _, rfl, rfl, rfl, rfl⟩

theorem Reachable.inv {k : Kernel} (h : Reachable k) : k.Inv := by
  obtain ⟨c, es, k0, hboot, hrun⟩ := h
  exact hrun.inv (fun _ _ _ hi hs => Kernel.step_inv hi hs) (boot_inv hboot)

end Nachos

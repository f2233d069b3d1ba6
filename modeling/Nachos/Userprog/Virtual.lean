import Nachos.Userprog.Contents
import Nachos.Userprog.Deadlock
import Nachos.Userprog.LoadSlot

/-! What the kernel is for: every process runs its program as if it had a machine to
itself. `World` is that idea, one flat machine for each thread and nothing else: no
frames, no page tables, no ready list, no locks. Each event of the kernel is some moves
of the running thread's machine, `Kernel.happening`, and the kernel's registers and
memory always are those of the flat machines. -/

namespace Nachos
open Lib

/-! ## Flat machines for all threads -/

/-- The memory a program starts with, as its header describes it. -/
def NoffFile.image (x : NoffFile) (a : Nat) : UInt8 :=
  (AddrSpace.new x 0 (fun _ => false) 0 []).programByte a

/-- The size of a program's address space. -/
def NoffFile.numPages (x : NoffFile) : Nat :=
  match Kernel.pagesNeeded (NoffHeader.decode x.bytes) with
  | .ok n => n
  | .error _ => 0

/-- A program about to begin. -/
def Flat.start (x : NoffFile) : Flat := ⟨.init x.numPages, x.image, x.numPages, false⟩

abbrev World := ThreadPtr → Flat

/-- What happens to one program, and a program it starts. -/
structure Happening where
  thread : ThreadPtr
  moves : List Move
  spawn : Option (ThreadPtr × NoffFile)

namespace World

def spawn (w : World) : Option (ThreadPtr × NoffFile) → World
  | none => w
  | some (t, x) => Function.update w t (.start x)

def step (w : World) (h : Happening) : Except Fault World := do
  let m ← h.moves.foldlM Flat.step (w h.thread)
  .ok (spawn (Function.update w h.thread m) h.spawn)

end World

/-! ## What the kernel's events mean -/

def Next.moves : Next → List Move
  | .tick true => [.interrupt]
  | _ => []

/-- The thread is in a system call. -/
def Cont.calling : Cont → Bool
  | .call => true
  | .locking _ _ inCall => inCall
  | .locked _ _ inCall => inCall
  | _ => false

/-- A program that `loadPage` builds as its header describes it, and nothing else: the
segments are apart, and what is copied from behind them does no harm. -/
structure NoffFile.Sound (x : NoffFile) : Prop where
  tame : x.Tame
  disjoint : ∀ a, (NoffHeader.decode x.bytes).code.Contains a →
    ¬ (NoffHeader.decode x.bytes).initData.Contains a
  harmless : ∀ v, (AddrSpace.new x 0 (fun _ => false) 0 []).Harmless v

/-- A new address space stands for the program's image. -/
theorem NoffFile.Sound.new_holds {x : NoffFile} (h : x.Sound) (numPages : Nat)
    (junk : Nat → Bool) (i : Inode) (name : FileName) (mem : Nat → UInt8) :
    (AddrSpace.new x numPages junk i name).Holds mem x.image := by
  refine ⟨fun _ => rfl, fun v _ f hvalid => ?_, fun v _ _ => ?_⟩
  · cases hvalid
  · refine List.map_congr_left fun j hj => ?_
    have hj' := List.mem_range.mp hj
    refine ((AddrSpace.executableByte_eq_iff (S := .new x numPages junk i name) h.disjoint).mpr
      (h.harmless v j hj')).trans ?_
    change _ = AddrSpace.programByte _ ((v * pageSize + j : Nat) : Int)
    push_cast
    rfl

namespace Kernel

/-- What an event is to the program of the running thread. -/
def moves (k : Kernel) : Event → List Move
  | .instr _ _ => if k.completes then [.execute] else []
  | .fault addr _ => [.fault addr]
  | .trap => [.trap]
  | .copy (.write addr width value) => [.store addr width value]
  | .copy (.read _ _) => []
  | .ret (some value) => [.result value, .resume]
  | .ret none => [.resume]
  | .exec filename _ _ =>
    if (k.exe filename).isSome then [.result (BitVec.ofNat 32 k.threadID), .resume] else [.resume]
  | .join | .yield => [.resume]
  | .exit => [.exit]
  | .fatal addr _ => [.killed addr]
  | .tick _ | .lock _ | .load _ | .enable _ | .create => []

def spawn (k : Kernel) : Event → Option (ThreadPtr × NoffFile)
  | .exec filename _ _ => (k.exe filename).map fun x => (k.nextThread, x)
  | _ => none

def happening (k : Kernel) (e : Event) : Happening where
  thread := k.currentThread
  moves := k.moves e ++ match k.act e with
    | .ok (_, n) => n.moves
    | .error _ => []
  spawn := k.spawn e

/-- The event is one of the machine: a user instruction makes its own accesses and
leaves the registers that `OneInstruction` leaves, and traps are those it raises. -/
def Genuine (k : Kernel) : Event → Prop
  | .instr accesses registers => ∃ s S o, k.machineTable = .ok (s, S) ∧
      accesses = (k.machine S).accesses ∧ (k.machine S).oneInstruction = .ok o ∧
      registers = match o with
        | .completed m => m.registers
        | .raised _ _ => k.registers
  | .trap => ∃ s S m, k.machineTable = .ok (s, S) ∧
      (k.machine S).oneInstruction = .ok (.raised .syscall m)
  | .fatal _ _ => k.here = .user → ∃ s S which m, k.machineTable = .ok (s, S) ∧
      (k.machine S).oneInstruction = .ok (.raised which m) ∧ which ≠ .pageFault ∧
      which ≠ .syscall
  | _ => True

/-- The kernel's threads are where the flat machines are. -/
structure Mirrors (k : Kernel) (w : World) : Prop where
  memory : ∀ {t s S}, k.frames.home t = some s → k.space s = some S →
    S.numPages = (w t).numPages ∧ S.Holds k.mainMemory (w t).image
  registers : k.Holding fun t r => r = (w t).registers
  calling : ∀ t, (k.live t).isSome → (w t).calling = (k.cont t).calling
  fresh : ∀ t, (k.live t).isSome → (k.cont t).Booting →
    (w t).registers = .init (w t).numPages

variable {k k' k1 : Kernel} {n : Next} {e : Event} {w : World} {t : ThreadPtr} {s : SpacePtr}
  {S : AddrSpace}

/-! ## The dispatch -/

theorem Holding.switch {P : ThreadPtr → Registers → Prop} (hp : k.Holding P) (hs : k.Paused n)
    (hn : n ≠ .tick true) (h : k.dispatch n = .ok k') : k'.Holding P := by
  rcases dispatch_cases h with ⟨-, rfl | ⟨he, -⟩⟩ | ⟨next, rest, regs, st, -, hregs, hw⟩
  · exact hp
  · exact absurd he hn
  · obtain ⟨-, rfl⟩ : n ≠ .tick true ∧ regs = k.registers := hregs.resolve_left fun h => hn h.1
    have hcont : k'.cont = k.cont := (congrArg Kernel.cont hw.rest :)
    have hlive : k'.live = k.live := hw.live
    have hsaved (t : ThreadPtr) (hl : (k.live t).isSome) (hb : ¬ (k.cont t).Booting) :
        P t (k'.userRegisters t) := by
      by_cases ht : t = k.currentThread
      · subst ht
        obtain ⟨T, hT⟩ := Option.isSome_iff_exists.mp hl
        obtain ⟨s, hsp, -⟩ := hs.procs.space hT
        have hspace : k.spaceOf k.currentThread = some s := (spaceOf_of_live hT).trans hsp
        have hself : k'.userRegisters k.currentThread = k.registers :=
          (congrFun hw.saved k.currentThread).trans (saveState_self hspace)
        rw [hself]
        exact hp.running hl hb
      · have hother : k'.userRegisters t = k.userRegisters t :=
          (congrFun hw.saved t).trans (saveState_of_ne ht)
        rw [hother]
        exact hp.saved t ht hl hb
    refine ⟨fun hl hb => ?_, fun t _ hl hb => hsaved t (hlive ▸ hl) (hcont ▸ hb)⟩
    rw [hw.current, hlive] at hl
    rw [here, hcont, hw.current] at hb
    obtain ⟨T, hT⟩ := Option.isSome_iff_exists.mp hl
    obtain ⟨s, hsp, -⟩ := hs.procs.space hT
    have hroot : k.cont next ≠ .threadRoot := fun he => hb (.inl he)
    obtain ⟨hrestored, -⟩ :=
      (hw.resumed hroot).2 s ((spaceOf_of_live hT).trans hsp) (live_eq_some hT).1
    rw [hrestored, ← hw.saved, hw.current]
    exact hsaved next hl hb

theorem Paused.inv_of_tick {fire : Bool} (hs : k.Paused (.tick fire)) : k.Inv :=
  ⟨hs.procs, hs.seated, hs.framed, fun _ => hs.home (by simp)⟩

/-- Behind the dispatch the program that was running has been interrupted or not. -/
theorem Mirrors.dispatch {m : Flat} (hM : k.Mirrors w) (hs : k.Paused n)
    (hm : n.moves.foldlM Flat.step (w k.currentThread) = .ok m) (h : k.dispatch n = .ok k') :
    k'.Mirrors (Function.update w k.currentThread m) := by
  obtain ⟨hrest, hlive, -⟩ := dispatch_frame h
  have hcont : k'.cont = k.cont := (congrArg Kernel.cont hrest :)
  have hspace : k'.space = k.space := (congrArg Kernel.space hrest :)
  have hmem : k'.mainMemory = k.mainMemory := (congrArg Kernel.mainMemory hrest :)
  have hfix : m.image = (w k.currentThread).image ∧ m.numPages = (w k.currentThread).numPages ∧
      m.calling = (w k.currentThread).calling ∧
      (m.registers = (w k.currentThread).registers ∧ n ≠ .tick true ∨
        m.registers = (w k.currentThread).registers.flush ∧ n = .tick true) := by
    unfold Next.moves at hm
    split at hm
    · cases hm
      exact ⟨rfl, rfl, rfl, .inr ⟨rfl, rfl⟩⟩
    · rename_i hne
      cases hm
      exact ⟨rfl, rfl, rfl, .inl ⟨rfl, hne⟩⟩
  obtain ⟨himage, hpages, hcalling, hregs⟩ := hfix
  have hother {t : ThreadPtr} (ht : t ≠ k.currentThread) :
      Function.update w k.currentThread m t = w t := Function.update_of_ne ht _ _
  refine ⟨fun {t s S} hhome hS => ?_, ?_, fun t hl => ?_, fun t hl hb => ?_⟩
  · rw [dispatch_frames h] at hhome
    rw [hspace] at hS
    rw [hmem]
    by_cases ht : t = k.currentThread
    · subst ht
      rw [Function.update_self, himage, hpages]
      exact hM.memory hhome hS
    · rw [hother ht]
      exact hM.memory hhome hS
  · rcases hregs with ⟨hr, hn⟩ | ⟨hr, rfl⟩
    · have hsame (t : ThreadPtr) :
          (Function.update w k.currentThread m t).registers = (w t).registers := by
        by_cases ht : t = k.currentThread
        · subst ht
          rw [Function.update_self, hr]
        · rw [hother ht]
      simp only [hsame]
      exact hM.registers.switch hs hn h
    · have hflushed : { k with registers := k.registers.flush }.Holding
          fun t r => r = (Function.update w k.currentThread m t).registers := by
        refine ⟨fun hl hb => ?_, fun t ht hl hb => ?_⟩
        · change k.registers.flush = _
          rw [Function.update_self, hr, hM.registers.running hl hb]
        · rw [hother ht]
          exact hM.registers.saved t ht hl hb
      exact hflushed.switch (hs.inv_of_tick.registers _ (by simp)) (n := .yield) (by simp) h
  · rw [hcont]
    rw [hlive] at hl
    by_cases ht : t = k.currentThread
    · subst ht
      rw [Function.update_self, hcalling]
      exact hM.calling _ hl
    · rw [hother ht]
      exact hM.calling t hl
  · rw [hcont] at hb
    rw [hlive] at hl
    by_cases ht : t = k.currentThread
    · subst ht
      have hinit := hM.fresh _ hl hb
      rw [Function.update_self, hpages]
      rcases hregs with ⟨hr, -⟩ | ⟨hr, -⟩
      · rw [hr, hinit]
      · rw [hr, hinit, Registers.flush_eq_self rfl rfl rfl]
    · rw [hother ht]
      exact hM.fresh t hl hb

/-! ## The other threads -/

/-- The threads behind an event: those that were there, with their spaces, and the
first thread of a new process. -/
theorem act_peers {T : Thread} (hi : k.Inv) (h : k.act e = .ok (k', n))
    (hl : k'.live t = some T) :
    (∃ T0, k.live t = some T0 ∧ T.space = T0.space ∧
      (t ≠ k.currentThread → k'.cont t = k.cont t)) ∨
    ∃ x numPages junk i name, k.spawn e = some (t, x) ∧ t = k.nextThread ∧
      T.space = some k.nextSpace ∧ k'.cont t = .threadRoot ∧
      pagesNeeded (NoffHeader.decode x.bytes) = .ok numPages ∧
      k'.space k.nextSpace = some (.new x numPages junk i name) := by
  obtain ⟨R, hR, hRj⟩ := hi.running
  cases act_acted hi h with
  | moved hlocal => exact .inl ⟨T, hlocal.live ▸ hl, rfl, hlocal.conts t⟩
  | @built filename junk fire x k1 hopens hnew =>
    have hp : (k.goTo .user).Processes :=
      hi.procs.transfer (.of_eq rfl rfl rfl rfl rfl rfl fun _ => rfl)
    obtain ⟨hs, hcont, -⟩ := exec_spawned (r := BitVec.ofNat 32 k.threadID) hnew
    have hcont' : _ = Function.update (Function.update k.cont k.currentThread .user)
      k.nextThread .threadRoot t := congrFun hcont t
    have hlive' : (if t = k.nextThread then some k.child else k.live t) = some T :=
      (hs.live hp t).symm.trans hl
    by_cases htn : t = k.nextThread
    · rw [if_pos htn] at hlive'
      cases hlive'
      obtain ⟨R', numPages, i, -, -, hsize, -, hk1⟩ := newAddrSpace_eq_ok hnew
      have hspace : k1.space = Function.update k.space k.nextSpace _ :=
        (congrArg Kernel.space hk1 :)
      refine .inr ⟨x, numPages, junk, i, swapName R'.ID, ?_, htn, rfl, ?_, hsize, ?_⟩
      · rw [spawn, hopens, htn]
        rfl
      · rw [htn] at hcont'
        exact htn ▸ hcont'.trans (Function.update_self _ _ _)
      · exact (congrFun hspace _).trans (Function.update_self _ _ _)
    · rw [if_neg htn] at hlive'
      refine .inl ⟨T, hlive', rfl, fun ht => hcont'.trans ?_⟩
      rw [Function.update_of_ne htn, Function.update_of_ne ht]
  | @joined c =>
    have hmap := (live_map (k.goTo .user) (joinEffect k.currentThread c) t).symm.trans hl
    obtain ⟨T0, hT0, rfl⟩ := Option.map_eq_some_iff.mp hmap
    exact .inl ⟨T0, hT0, rfl, fun ht => Function.update_of_ne ht _ _⟩
  | @ended _ r _ _ ha hterm =>
    have hr : { k with registers := r }.Inv := hi.registers r (by simp)
    have hlive' := ((hr.procs.terminate hR hRj ha.dying hterm).2 t).symm.trans hl
    by_cases ht : t = k.currentThread
    · exact absurd hlive' (by rw [if_pos ht]; simp)
    · rw [if_neg ht] at hlive'
      obtain ⟨T0, hT0, rfl⟩ := Option.map_eq_some_iff.mp hlive'
      obtain ⟨s, hs, -⟩ := hi.procs.space hR
      rw [← ha.thread_eq] at hR
      obtain ⟨S, m, st, -, -, hk⟩ := terminate_eq_ok (k := { k with registers := r }) hR hs hterm
      exact .inl ⟨T0, hT0, (wakeEffect_kept _ _ _).2.1, fun _ => by rw [hk]⟩
  | created hc =>
    obtain ⟨_, _, -, -, hk, hlive, -⟩ := create_eq_ok hc
    refine .inl ⟨T, hlive ▸ hl, rfl, fun ht => ?_⟩
    have hcur := congrArg Kernel.currentThread hk
    rw [← show _ = k.cont from (congrArg Kernel.cont hk :)]
    exact Function.update_of_ne (hcur ▸ ht) _ _

theorem ne_nextThread {T : Thread} (hi : k.Inv) (hl : k.live t = some T) : t ≠ k.nextThread := by
  rintro rfl
  have hnone := hi.procs.fresh _ (Nat.le_refl _)
  cases hnone.symm.trans (live_eq_some hl).2

theorem act_numPages {S' : AddrSpace} (hi : k.Inv) (h : k.act e = .ok (k', n))
    (hS : k.space s = some S) (hS' : k'.space s = some S') : S'.numPages = S.numPages := by
  obtain ⟨R, hR, -⟩ := hi.running
  have hsame (h : k'.space s = k.space s) : S'.numPages = S.numPages := by
    cases hS'.symm.trans (h.trans hS)
    rfl
  cases act_acted hi h with
  | moved hlocal =>
    have hf := hlocal.fixed s
    rw [hS, hS'] at hf
    exact (congrArg AddrSpace.numPages (Option.some.inj hf) :)
  | built _ hnew =>
    obtain ⟨_, _, _, -, -, -, -, hk1⟩ := newAddrSpace_eq_ok hnew
    have hspace := congrFun (congrArg Kernel.space hk1 :) s
    have hne : s ≠ k.nextSpace := by
      rintro rfl
      rw [hi.procs.freshSpace _ (Nat.le_refl _)] at hS
      cases hS
    exact hsame (hspace.trans (Function.update_of_ne (by exact hne) _ _))
  | joined => exact hsame rfl
  | @ended _ r _ _ ha hterm =>
    obtain ⟨s0, hs0, -⟩ := hi.procs.space hR
    obtain ⟨_, _, _, -, -, hk⟩ :=
      terminate_eq_ok (k := { k with registers := r }) (live_eq_some hR).2 hs0 hterm
    have hspace := congrFun (congrArg Kernel.space hk :) s
    have hne : s ≠ s0 := by
      rintro rfl
      cases hS'.symm.trans (hspace.trans (Function.update_self _ _ _))
    exact hsame (hspace.trans (Function.update_of_ne hne _ _))
  | created hc =>
    obtain ⟨_, _, -, -, hk, -⟩ := create_eq_ok hc
    exact hsame (congrFun (congrArg Kernel.space hk :) s)

/-! ## The running thread -/

/-- The running thread's flat machine before and behind an event that leads to `k1`. -/
structure Moved (e : Event) (m m1 : Flat) (k1 : Kernel) : Prop where
  image : m1.image = e.stores m.image
  numPages : m1.numPages = m.numPages
  calling : (k1.live k1.currentThread).isSome → m1.calling = k1.here.calling
  registers : ¬ k1.here.Booting → m1.registers = k1.registers
  fresh : k1.here.Booting → m1.registers = .init m1.numPages

theorem not_booting_locking {v : Int} {f : Nat} {c : Bool} : ¬ Cont.Booting (.locking v f c) := by
  rintro (h | h) <;> cases h

theorem not_booting_locked {v : Int} {f : Nat} {c : Bool} : ¬ Cont.Booting (.locked v f c) := by
  rintro (h | h) <;> cases h

/-- An event that takes a thread at its program to another place there. -/
theorem Moved.of_registers {m m1 : Flat} (himage : m1.image = e.stores m.image)
    (hpages : m1.numPages = m.numPages)
    (hcalling : (k1.live k1.currentThread).isSome → m1.calling = k1.here.calling)
    (hb : ¬ k1.here.Booting) (hregs : m1.registers = k1.registers) : Moved e m m1 k1 :=
  ⟨himage, hpages, hcalling, fun _ => hregs, fun h => absurd h hb⟩

/-- The machine of a thread that runs its program fits the flat one. -/
theorem Mirrors.fits (hM : k.Mirrors w) (hk : k.Framed) (ha : k.AtHome)
    (ht : k.machineTable = .ok (s, S)) : (w k.currentThread).Fits (k.memory S) := by
  obtain ⟨T, hT, -⟩ := hk.inv.running
  obtain ⟨s0, S0, hsp, hpt, hS0, hsize⟩ := ha.table
  obtain ⟨hpt', hS⟩ := machineTable_eq_ok.mp ht
  cases hpt.symm.trans hpt'
  cases hS.symm.trans hS0
  have hhome : k.frames.home k.currentThread = some s :=
    frames_home.mpr ⟨T, hT, (spaceOf_of_live hT).symm.trans hsp⟩
  obtain ⟨hpages, hh⟩ := hM.memory hhome hS
  have hmem := memory_holds hk.frames hS hh
  have he : k.memory S = S.memory k.mainMemory := by
    change (⟨_, _, k.pageTableSize⟩ : Memory) = ⟨_, _, S.numPages⟩
    rw [hsize]
  rw [he]
  exact ⟨hmem, hpages, hh.writable⟩

theorem Mirrors.running (hM : k.Mirrors w) (hi : k.Inv) (hb : ¬ k.here.Booting) :
    (w k.currentThread).registers = k.registers ∧
      (w k.currentThread).calling = k.here.calling := by
  obtain ⟨T, hT, -⟩ := hi.running
  have hl : (k.live k.currentThread).isSome := by
    rw [hT]
    rfl
  exact ⟨(hM.registers.running hl hb).symm, hM.calling _ hl⟩

theorem completes_iff {o : Outcome} (ht : k.machineTable = .ok (s, S))
    (ho : (k.machine S).oneInstruction = .ok o) :
    k.completes = match o with
      | .completed _ => true
      | .raised _ _ => false := by
  simp only [completes, ht, ho]
  cases o <;> rfl

/-- A user instruction, completed or not, on the flat machine. -/
theorem instr_moved {accesses : List Access} {registers : Registers} (hM : k.Mirrors w)
    (hk : k.Framed) (hu : k.here = .user) (hg : k.Genuine (.instr accesses registers))
    (hmade : accesses.foldlM access k = .ok k1) :
    ∃ m, (k.moves (.instr accesses registers)).foldlM Flat.step (w k.currentThread) = .ok m ∧
      Moved (.instr accesses registers) (w k.currentThread) m
        { k1 with registers := registers } := by
  have hb : ¬ k.here.Booting := by rw [hu]; exact not_booting_user
  obtain ⟨hregs, hcalling⟩ := hM.running hk.inv hb
  obtain ⟨s, S, o, ht, rfl, ho, rfl⟩ := hg
  have hfits := hM.fits hk (hk.inv.atHome hb) ht
  have hmachine : k.machine S = ⟨(w k.currentThread).registers, k.memory S⟩ := by
    rw [hregs]
    rfl
  have hcompletes := completes_iff ht ho
  have hhere : k1.here = .user := (congrArg Kernel.here (accesses_memoryOnly hmade).rest :).trans hu
  have hb1 : ¬ k1.here.Booting := by rw [hhere]; exact not_booting_user
  have hc1 : (w k.currentThread).calling = k1.here.calling := by rw [hcalling, hhere, hu]
  have huser : (w k.currentThread).calling = false := by rw [hcalling, hu]; rfl
  rw [hmachine] at ho
  -- an instruction that raises an exception leaves no trace
  have hraised {which : ExceptionType} {m' : Machine}
      (ho : Machine.oneInstruction ⟨(w k.currentThread).registers, k.memory S⟩ =
        .ok (.raised which m')) (hf : k.completes = false) :
      ∃ m, (k.moves (.instr (k.machine S).accesses k.registers)).foldlM Flat.step
          (w k.currentThread) = .ok m ∧
        Moved (.instr (k.machine S).accesses k.registers) (w k.currentThread) m
          { k1 with registers := k.registers } := by
    refine ⟨_, by rw [moves, hf]; rfl, .of_registers ?_ rfl (fun _ => hc1) hb1 hregs⟩
    rw [hmachine]
    exact (Flat.accesses_of_raised (a := .readMem _ _ _)
      (fun _ => Instruction.execute_restartable _ _) ho _).symm
  cases Flat.oneInstruction_flat hfits ho with
  | @completed m' hflat =>
    refine ⟨{ w k.currentThread with
      registers := m'.registers
      image := (k.machine S).accesses.foldl Access.store (w k.currentThread).image }, ?_,
      .of_registers rfl rfl (fun _ => hc1) hb1 rfl⟩
    have hone : (w k.currentThread).oneInstruction = _ := hflat
    rw [moves, hcompletes, if_pos rfl, List.foldlM_cons]
    simp only [Flat.step, huser, hone, ok_bind, hmachine]
    rfl
  | fault => exact hraised ho hcompletes
  | raised hflat => exact hraised ho hcompletes

theorem foldlM_one {m m1 : Flat} {x : Move} (h : m.step x = .ok m1) :
    [x].foldlM Flat.step m = .ok m1 := by
  rw [List.foldlM_cons, h]
  rfl

theorem pageFault_moved {addr : BitVec 32} {random : Nat} (hM : k.Mirrors w) (hi : k.Inv)
    (hu : k.atUser) (h : k.pageFault addr random = .ok k1) :
    Moved (.fault addr random) (w k.currentThread)
      { w k.currentThread with registers := (w k.currentThread).registers.raise addr } k1 := by
  have hb : ¬ k.here.Booting := by
    rcases hu with hu | hu <;> rw [hu]
    · exact not_booting_user
    · exact not_booting_call
  obtain ⟨hregs, hcalling⟩ := hM.running hi hb
  obtain ⟨s, f, k2, -, hsel, hbranch⟩ := pageFault_cases h
  have hm := (selectPage_memoryOnly hsel).1.rest
  have hregs2 : k2.registers = k.registers.raise addr := (congrArg Kernel.registers hm :)
  have hhere2 : k2.here = k.here := (congrArg Kernel.here hm :)
  rcases hbranch with ⟨-, rfl⟩ | ⟨-, hfill⟩
  · refine .of_registers rfl rfl (fun _ => ?_) ?_ (by rw [hregs]; exact hregs2.symm)
    · rw [here_goTo]
      refine hcalling.trans ?_
      rcases hu with hu | hu <;> rw [hu] <;> rfl
    · rw [here_goTo]
      exact not_booting_locking
  · have hm3 := (fillPage_memoryOnly hfill).rest
    have hregs3 : k1.registers = k2.registers := (congrArg Kernel.registers hm3 :)
    have hhere3 : k1.here = k2.here := (congrArg Kernel.here hm3 :)
    have hhere : k1.here = k.here := hhere3.trans hhere2
    refine .of_registers rfl rfl (fun _ => ?_) (hhere ▸ hb) ?_
    · rw [hhere]
      exact hcalling
    · rw [hregs, hregs3, hregs2]

/-- The thread that ends is not there any more. -/
theorem terminate_moved {r : Registers} {m m1 : Flat} (hi : k.Inv) (ha : k.AtHome)
    (hb : ¬ k.here.Booting) (h : { k with registers := r }.terminate = .ok k1)
    (himage : m1.image = e.stores m.image) (hpages : m1.numPages = m.numPages)
    (hregs : m1.registers = r) : Moved e m m1 k1 := by
  obtain ⟨T, hT, hTj⟩ := hi.running
  have hr : { k with registers := r }.Inv := hi.registers r (by simp)
  obtain ⟨s, hs, -⟩ := hi.procs.space hT
  have hlive := (hr.procs.terminate hT hTj ha.dying h).2 k.currentThread
  have hregs1 := terminate_registers hi ha h
  obtain ⟨S, mp, st, -, -, hk⟩ :=
    terminate_eq_ok (k := { k with registers := r }) (live_eq_some hT).2 hs h
  have hcur : k1.currentThread = k.currentThread := (congrArg Kernel.currentThread hk :)
  have hcont : k1.cont = k.cont := (congrArg Kernel.cont hk :)
  refine .of_registers himage hpages (fun hl => ?_) ?_ (hregs.trans hregs1.symm)
  · rw [hcur, hlive, if_pos rfl] at hl
    cases hl
  · unfold here at hb ⊢
    rwa [hcont, hcur]

theorem act_moved (hM : k.Mirrors w) (hk : k.Framed) (hg : k.Genuine e)
    (h : k.act e = .ok (k1, n)) :
    ∃ m, (k.moves e).foldlM Flat.step (w k.currentThread) = .ok m ∧
      Moved e (w k.currentThread) m k1 := by
  have hi := hk.inv
  have huser (hu : k.here = .user) : (w k.currentThread).registers = k.registers ∧
      (w k.currentThread).calling = false := by
    obtain ⟨hregs, hcalling⟩ := hM.running hi (by rw [hu]; exact not_booting_user)
    exact ⟨hregs, by rw [hcalling, hu]; rfl⟩
  have hcall (hc : k.here = .call) : (w k.currentThread).registers = k.registers ∧
      (w k.currentThread).calling = true := by
    obtain ⟨hregs, hcalling⟩ := hM.running hi (by rw [hc]; exact not_booting_call)
    exact ⟨hregs, by rw [hcalling, hc]; rfl⟩
  -- where a call returns, perhaps with a result
  have hback (k1 : Kernel) (hc : k.here = .call) (hhere : k1.here = .user)
      (hregs : k1.registers = k.registers) (hmoves : k.moves e = [.resume])
      (himage : e.stores (w k.currentThread).image = (w k.currentThread).image) :
      ∃ m, (k.moves e).foldlM Flat.step (w k.currentThread) = .ok m ∧
        Moved e (w k.currentThread) m k1 := by
    refine ⟨{ w k.currentThread with calling := false }, ?_,
      .of_registers himage.symm rfl (fun _ => by rw [hhere]; rfl)
        (by rw [hhere]; exact not_booting_user) ((hcall hc).1.trans hregs.symm)⟩
    rw [hmoves]
    exact foldlM_one (if_pos (hcall hc).2)
  have hresult (k1 : Kernel) (value : BitVec 32) (hc : k.here = .call) (hhere : k1.here = .user)
      (hregs : k1.registers = k.registers.write 2 value)
      (hmoves : k.moves e = [.result value, .resume])
      (himage : e.stores (w k.currentThread).image = (w k.currentThread).image) :
      ∃ m, (k.moves e).foldlM Flat.step (w k.currentThread) = .ok m ∧
        Moved e (w k.currentThread) m k1 := by
    refine ⟨{ w k.currentThread with
      registers := (w k.currentThread).registers.write 2 value, calling := false }, ?_,
      .of_registers himage.symm rfl (fun _ => by rw [hhere]; rfl)
        (by rw [hhere]; exact not_booting_user) (by rw [(hcall hc).1, hregs])⟩
    have hstep : (w k.currentThread).step (.result value) =
        .ok { w k.currentThread with registers := (w k.currentThread).registers.write 2 value } :=
      if_pos (hcall hc).2
    rw [hmoves, List.foldlM_cons, hstep, ok_bind]
    exact foldlM_one (if_pos (hcall hc).2)
  cases acts_of_act h with
  | instr hu hmade => exact instr_moved hM hk hu hg hmade
  | tick =>
    obtain ⟨T, hT, -⟩ := hi.running
    have hl : (k.live k.currentThread).isSome := by rw [hT]; rfl
    exact ⟨_, rfl, rfl, rfl, fun _ => hM.calling _ hl, fun hb => (hM.running hi hb).1,
      hM.fresh _ hl⟩
  | fault hu _ hserved => exact ⟨_, rfl, pageFault_moved hM hi hu hserved⟩
  | lock h =>
    obtain ⟨v, f, c, hhere, hbranch⟩ := lock_cases h
    obtain ⟨hregs, hcalling⟩ := hM.running hi (by rw [hhere]; exact not_booting_locking)
    rw [hhere] at hcalling
    rcases hbranch with ⟨rfl, -⟩ | ⟨rfl, -⟩
    · have hsame : (k.lockWait f).here = .locking v f c := hhere
      exact ⟨_, rfl, .of_registers rfl rfl (fun _ => by rw [hsame]; exact hcalling)
        (by rw [hsame]; exact not_booting_locking) hregs⟩
    · exact ⟨_, rfl, .of_registers rfl rfl (fun _ => by rw [here_goTo]; exact hcalling)
        (by rw [here_goTo]; exact not_booting_locked) hregs⟩
  | load h =>
    obtain ⟨v, f, c, s, k2, hhere, -, hfill, rfl, -⟩ := load_cases h
    obtain ⟨hregs, hcalling⟩ := hM.running hi (by rw [hhere]; exact not_booting_locked)
    obtain ⟨st, r, l, hV⟩ := k2.lockV_eq f
    have hregs2 : k2.registers = k.registers :=
      (congrArg Kernel.registers (fillPage_memoryOnly hfill).rest :)
    rw [hV]
    refine ⟨_, rfl, .of_registers rfl rfl (fun _ => ?_) ?_ (hregs.trans hregs2.symm)⟩
    · rw [here_goTo, hcalling, hhere]
      cases c <;> rfl
    · rw [here_goTo]
      cases c
      · exact not_booting_user
      · exact not_booting_call
  | trap hu =>
    obtain ⟨hregs, hcalling⟩ := huser hu
    obtain ⟨s, S, m', ht, ho⟩ := hg
    have hb : ¬ k.here.Booting := by rw [hu]; exact not_booting_user
    have hfits := hM.fits hk (hi.atHome hb) ht
    have hmachine : k.machine S = ⟨(w k.currentThread).registers, k.memory S⟩ := by
      rw [hregs]
      rfl
    rw [hmachine] at ho
    have hone : (w k.currentThread).oneInstruction = .ok (.raised .syscall) := by
      cases Flat.oneInstruction_flat hfits ho with
      | raised hflat => exact hflat
    refine ⟨{ w k.currentThread with
      registers := ((w k.currentThread).registers.raise 0).advance, calling := true },
      foldlM_one ?_, .of_registers rfl rfl (fun _ => ?_) ?_ ?_⟩
    · simp only [Flat.step, hcalling, hone]
    · exact (congrArg Cont.calling (here_goTo _ .call)).symm
    · change ¬ (Kernel.goTo _ .call).here.Booting
      rw [here_goTo]
      exact not_booting_call
    · rw [hregs]
      rfl
  | @copy a k1 hc hmade =>
    obtain ⟨hregs, hcalling⟩ := hcall hc
    have hm := (access_memoryOnly hmade).rest
    have hhere : k1.here = .call := (congrArg Kernel.here hm :).trans hc
    have hregs1 : k1.registers = k.registers := (congrArg Kernel.registers hm :)
    have hb1 : ¬ k1.here.Booting := by rw [hhere]; exact not_booting_call
    cases a with
    | read addr width =>
      exact ⟨_, rfl, .of_registers rfl rfl (fun _ => by rw [hhere]; exact hcalling) hb1
        (hregs.trans hregs1.symm)⟩
    | write addr width value =>
      exact ⟨_, foldlM_one (if_pos hcalling), .of_registers rfl rfl
        (fun _ => by rw [hhere]; exact hcalling) hb1 (hregs.trans hregs1.symm)⟩
  | @ret result hc =>
    cases result with
    | none => exact hback _ hc (here_goTo _ _) rfl rfl rfl
    | some value => exact hresult _ value hc (here_goTo _ _) rfl rfl rfl
  | @exec filename junk fire k1 n hc hmade =>
    obtain ⟨hi', ha'⟩ := hi.back hc
    rcases exec_cases hi' ha' hmade with ⟨hnone, rfl, -⟩ | ⟨x, k2, hopens, hnew, -, rfl⟩
    · have hnone : k.exe filename = none := hnone
      exact hback _ hc (here_goTo _ _) rfl (by rw [moves, hnone]; rfl) rfl
    · have hopens : k.exe filename = some x := hopens
      obtain ⟨hs, hcont, -, -, hcur, -, -, hregs⟩ :=
        exec_spawned (r := BitVec.ofNat 32 k.threadID) hnew
      obtain ⟨T, hT, -⟩ := hi.running
      have hlt : k.currentThread ≠ k.nextThread := ne_nextThread hi hT
      refine hresult _ _ hc ?_ hregs (by rw [moves, hopens]; rfl) rfl
      have hcont' := congrFun hcont k.currentThread
      rw [Function.update_of_ne (by exact hlt)] at hcont'
      have hat := hcont'.trans (Function.update_self _ _ _)
      exact (congrArg (Kernel.cont _) hcur).trans hat
  | join hc hmade =>
    obtain ⟨hi', ha'⟩ := hi.back hc
    rcases join_target hi' ha' hmade with ⟨-, rfl, -⟩ | ⟨c, -, -, rfl⟩
    · exact hback _ hc (here_goTo _ _) rfl rfl rfl
    · exact hback _ hc (here_goTo k .user) rfl rfl rfl
  | yield hc => exact hback _ hc (here_goTo _ _) rfl rfl rfl
  | exit hc hended =>
    have hb : ¬ k.here.Booting := by rw [hc]; exact not_booting_call
    exact ⟨_, foldlM_one (if_pos (hcall hc).2), terminate_moved (r := k.registers) hi
      (hi.atHome hb) hb hended rfl rfl (hcall hc).1⟩
  | @fatal addr merged _ hu hended =>
    have hregs : (w k.currentThread).registers = k.registers := by
      rcases hu with hu | hu
      · exact (huser hu).1
      · exact (hcall hu).1
    have hb : ¬ k.here.Booting := by
      rcases hu with hu | hu <;> rw [hu]
      · exact not_booting_user
      · exact not_booting_call
    refine ⟨{ w k.currentThread with registers := (w k.currentThread).registers.raise addr },
      foldlM_one ?_, terminate_moved hi (hi.atHome hb) hb hended rfl rfl (by rw [hregs])⟩
    rcases hu with hu | hu
    · obtain ⟨s, S, which, m', ht, ho, hfault, hsyscall⟩ := hg hu
      have hfits := hM.fits hk (hi.atHome hb) ht
      have hmachine : k.machine S = ⟨(w k.currentThread).registers, k.memory S⟩ := by
        rw [hregs]
        rfl
      rw [hmachine] at ho
      have hone : (w k.currentThread).oneInstruction = .ok (.raised which) := by
        cases Flat.oneInstruction_flat hfits ho with
        | fault => exact absurd rfl hfault
        | raised hflat => exact hflat
      simp only [Flat.step, (huser hu).2, hone, if_neg hsyscall]
    · simp only [Flat.step, (hcall hu).2]
  | enable hroot =>
    obtain ⟨T, hT, -⟩ := hi.running
    have hl : (k.live k.currentThread).isSome := by rw [hT]; rfl
    refine ⟨_, rfl, rfl, rfl, fun _ => ?_, fun hb => ?_, fun _ => ?_⟩
    · rw [here_goTo, hM.calling _ hl]
      change k.here.calling = _
      rw [hroot]
      rfl
    · rw [here_goTo] at hb
      exact absurd (.inr rfl) hb
    · exact hM.fresh _ hl (.inl hroot)
  | create hen hmade =>
    obtain ⟨T, hT, -⟩ := hi.running
    have hl : (k.live k.currentThread).isSome := by rw [hT]; rfl
    obtain ⟨s, S, hsp, hS, hk1, -⟩ := create_eq_ok hmade
    have hregs : _ = Registers.init S.numPages := (congrArg Kernel.registers hk1 :)
    have hhome : k.frames.home k.currentThread = some s :=
      frames_home.mpr ⟨T, hT, (spaceOf_of_live hT).symm.trans hsp⟩
    refine ⟨_, rfl, .of_registers rfl rfl (fun _ => ?_) (by rw [here_goTo]; exact not_booting_user)
      ?_⟩
    · rw [here_goTo, hM.calling _ hl]
      change k.here.calling = _
      rw [hen]
      rfl
    · rw [hM.fresh _ hl (.inr hen), ← (hM.memory hhome hS).1]
      exact hregs.symm

/-! ## The world behind an event -/

theorem spawn_eq_some {x : NoffFile} (h : k.spawn e = some (t, x)) :
    t = k.nextThread ∧ ∃ name, k.exe name = some x := by
  cases e with
  | exec filename junk fire =>
    obtain ⟨y, hy, he⟩ := Option.map_eq_some_iff.mp h
    cases he
    exact ⟨rfl, filename, hy⟩
  | _ => cases h

theorem spawn_of_ne (w : World) (ht : t ≠ k.nextThread) : w.spawn (k.spawn e) t = w t := by
  cases hs : k.spawn e with
  | none => rfl
  | some p =>
    have hp := (spawn_eq_some (t := p.1) (x := p.2) hs).1
    exact Function.update_of_ne (hp ▸ ht) _ _

theorem Mirrors.act {m : Flat} (hM : k.Mirrors w) (hk : k.Framed) (hu : k.frames.Unswapped)
    (ht : k.Tame) (hx : ∀ name x, k.exe name = some x → x.Sound) (hsp : k.Spares e)
    (h : k.act e = .ok (k1, n)) (hm : Moved e (w k.currentThread) m k1) :
    k1.Mirrors (World.spawn (Function.update w k.currentThread m) (k.spawn e)) := by
  have hi := hk.inv
  obtain ⟨R, hR, -⟩ := hi.running
  have hcur : k1.currentThread = k.currentThread := (act_others hi h).1
  have hself : World.spawn (Function.update w k.currentThread m) (k.spawn e) k.currentThread = m :=
    (spawn_of_ne _ (ne_nextThread hi hR)).trans (Function.update_self _ _ _)
  have hother {t : ThreadPtr} {T : Thread} (hl : k.live t = some T) (hne : t ≠ k.currentThread) :
      World.spawn (Function.update w k.currentThread m) (k.spawn e) t = w t :=
    (spawn_of_ne _ (ne_nextThread hi hl)).trans (Function.update_of_ne hne _ _)
  have hchild {t : ThreadPtr} {x : NoffFile} (hs : k.spawn e = some (t, x)) :
      World.spawn (Function.update w k.currentThread m) (k.spawn e) t = .start x := by
    rw [hs]
    exact Function.update_self _ _ _
  refine ⟨fun {t s S'} hhome hS' => ?_, ?_, fun t hl => ?_, fun t hl hb => ?_⟩
  · obtain ⟨T, hT, hs⟩ := frames_home.mp hhome
    rcases act_peers hi h hT with ⟨T0, hT0, hspace, -⟩ |
      ⟨x, numPages, junk, i, name, hspawn, -, hspace, -, hsize, hnew⟩
    · have hs0 : T0.space = some s := hspace.symm.trans hs
      have hhome0 : k.frames.home t = some s := frames_home.mpr ⟨T0, hT0, hs0⟩
      obtain ⟨s', hs', hsome⟩ := hi.procs.space hT0
      cases hs0.symm.trans hs'
      obtain ⟨S, hS⟩ := Option.isSome_iff_exists.mp hsome
      obtain ⟨hpages, hh⟩ := hM.memory hhome0 hS
      have hh' := act_holds hk hu ht hsp hS hh h hS'
      rw [act_numPages hi h hS hS']
      by_cases he : t = k.currentThread
      · subst he
        rw [if_pos ((spaceOf_of_live hT0).trans hs0)] at hh'
        rw [hself, hm.numPages, hm.image]
        exact ⟨hpages, hh'⟩
      · have hne : k.spaceOf k.currentThread ≠ some s := by
          intro hrun
          have hhomeR : k.frames.home k.currentThread = some s :=
            frames_home.mpr ⟨R, hR, (spaceOf_of_live hR).symm.trans hrun⟩
          exact he (hk.frames.homes hhome0 hhomeR)
        rw [if_neg hne] at hh'
        rw [hother hT0 he]
        exact ⟨hpages, hh'⟩
    · cases hspace.symm.trans hs
      cases hnew.symm.trans hS'
      obtain ⟨-, filename, hopens⟩ := spawn_eq_some hspawn
      rw [hchild hspawn]
      refine ⟨?_, (hx filename x hopens).new_holds _ _ _ _ _⟩
      change numPages = x.numPages
      rw [NoffFile.numPages, hsize]
  · have hold : k.Holding fun t r => t ≠ k.nextThread ∧ r = (w t).registers := by
      refine ⟨fun hl hb => ⟨ne_nextThread hi hR, hM.registers.running hl hb⟩,
        fun t ht hl hb => ?_⟩
      obtain ⟨T, hT⟩ := Option.isSome_iff_exists.mp hl
      exact ⟨ne_nextThread hi hT, hM.registers.saved t ht hl hb⟩
    refine hold.act hi h (fun hb => ?_) fun t r hne hr => ?_
    · rw [hself]
      exact (hm.registers hb).symm
    · rw [spawn_of_ne _ hr.1, Function.update_of_ne hne]
      exact hr.2
  · obtain ⟨T, hT⟩ := Option.isSome_iff_exists.mp hl
    rcases act_peers hi h hT with ⟨T0, hT0, -, hcont⟩ | ⟨x, _, _, _, _, hspawn, -, -, hcont, -⟩
    · by_cases he : t = k.currentThread
      · subst he
        rw [hself, hm.calling (by rw [hcur]; exact hl), here, hcur]
      · rw [hother hT0 he, hcont he]
        exact hM.calling t (by rw [hT0]; rfl)
    · rw [hchild hspawn, hcont]
      rfl
  · obtain ⟨T, hT⟩ := Option.isSome_iff_exists.mp hl
    rcases act_peers hi h hT with ⟨T0, hT0, -, hcont⟩ | ⟨x, _, _, _, _, hspawn, -⟩
    · by_cases he : t = k.currentThread
      · subst he
        rw [hself]
        refine hm.fresh ?_
        rw [here, hcur]
        exact hb
      · rw [hcont he] at hb
        rw [hother hT0 he]
        exact hM.fresh t (by rw [hT0]; rfl) hb
    · rw [hchild hspawn]
      rfl

/-! ## Runs -/

/-- The state of the kernel and of the flat machines between two events. -/
structure Virtual (k : Kernel) (w : World) : Prop where
  framed : k.Framed
  unswapped : k.frames.Unswapped
  tame : k.Tame
  sound : ∀ name x, k.exe name = some x → x.Sound
  mirrors : k.Mirrors w

theorem Virtual.step (hV : k.Virtual w) (hg : e.Clear ∧ k.Genuine e ∧ k.Spares e)
    (h : k.step e = .ok k') : ∃ w', w.step (k.happening e) = .ok w' ∧ k'.Virtual w' := by
  obtain ⟨hclear, hgenuine, hspares⟩ := hg
  have hi := hV.framed.inv
  obtain ⟨hframed', hunswapped'⟩ := hV.framed.step_unswapped hV.unswapped hclear h
  have hexe := step_exe hi h
  have htame' := hV.tame.step hi h
  obtain ⟨⟨k1, n⟩, hact, hdisp⟩ := bind_eq_ok.mp h
  obtain ⟨m, hmoves, hmoved⟩ := act_moved hV.mirrors hV.framed hgenuine hact
  have hM1 := hV.mirrors.act hV.framed hV.unswapped hV.tame hV.sound hspares hact hmoved
  obtain ⟨R, hR, -⟩ := hi.running
  have hne := ne_nextThread hi hR
  have hcur : k1.currentThread = k.currentThread := (act_others hi hact).1
  have hself : World.spawn (Function.update w k.currentThread m) (k.spawn e) k.currentThread = m :=
    (spawn_of_ne _ hne).trans (Function.update_self _ _ _)
  obtain ⟨m', hm'⟩ : ∃ m', n.moves.foldlM Flat.step m = .ok m' := by
    unfold Next.moves
    split
    · exact ⟨_, rfl⟩
    · exact ⟨_, rfl⟩
  have hM' := hM1.dispatch (act_paused hi hact) (by rw [hcur, hself]; exact hm') hdisp
  rw [hcur] at hM'
  -- the interrupt and the new program concern different threads
  have hw : Function.update (World.spawn (Function.update w k.currentThread m) (k.spawn e))
      k.currentThread m' = World.spawn (Function.update w k.currentThread m') (k.spawn e) := by
    cases hs : k.spawn e with
    | none => exact Function.update_idem _ _ _
    | some p =>
      have hp := (spawn_eq_some (t := p.1) (x := p.2) hs).1
      change Function.update (Function.update (Function.update w _ m) p.1 _) _ m' =
        Function.update (Function.update w _ m') p.1 _
      rw [Function.update_comm (by rw [hp]; exact hne.symm), Function.update_idem]
  refine ⟨_, bind_eq_ok.mpr ⟨m', ?_, rfl⟩, hframed', hunswapped', htame', ?_, hw ▸ hM'⟩
  · simp only [happening, hact, List.foldlM_append, hmoves, ok_bind]
    exact hm'
  · rw [hexe]
    exact hV.sound

theorem boot_virtual {c : Config} {k0 : Kernel} {x : NoffFile} (hboot : boot c = .ok k0)
    (hj : ∀ v, c.junk v = false) (hexe : ∀ name x, c.exe name = some x → x.Sound)
    (hx : c.exe c.program = some x) : k0.Virtual fun _ => .start x := by
  have hu : k0.frames.Unswapped := boot_unswapped hboot hj
  refine ⟨boot_framed hboot, @hu, boot_tame (fun name x h => (hexe name x h).tame) hboot, ?_, ?_⟩
  · obtain ⟨y, numPages, -, -, rfl⟩ := boot_eq_ok hboot
    exact hexe
  · obtain ⟨y, numPages, hy, hsize, hk⟩ := boot_eq_ok hboot
    cases hx.symm.trans hy
    have hpages : x.numPages = numPages := by rw [NoffFile.numPages, hsize]
    refine ⟨fun {t s S} hhome hS => ?_, boot_holding hboot ?_, fun t hl => ?_, fun t hl hb => ?_⟩
    · rw [hk] at hS
      change Function.update (fun _ => none) 0 _ s = some S at hS
      rw [Function.update_apply] at hS
      split at hS
      · cases hS
        exact ⟨hpages.symm, (hexe _ _ hx).new_holds _ _ _ _ _⟩
      · cases hS
    · rw [hk]
      exact congrArg Registers.init hpages.symm
    · rw [hk]
      rfl
    · rfl

/-- Every process runs its program as on a machine of its own. Whatever the kernel does
in a run (page faults in which nothing that was stored is put out, context switches,
system calls, new processes), the programs make the moves of flat machines, each from
the start of its program, and what the kernel keeps for a thread in registers, frames
and program files is what its flat machine has. -/
theorem programs_run_alone {c : Config} {k0 : Kernel} {es : List Event} {x : NoffFile}
    (hboot : boot c = .ok k0) (hj : ∀ v, c.junk v = false)
    (hexe : ∀ name x, c.exe name = some x → x.Sound) (hx : c.exe c.program = some x)
    (hrun : Run step k0 es k)
    (hguard : Guarded step (fun k e => e.Clear ∧ k.Genuine e ∧ k.Spares e) k0 es) :
    ∃ w, Run World.step (fun _ => .start x) (labels step happening k0 es) w ∧ k.Mirrors w := by
  obtain ⟨w, hrun', hV⟩ := hrun.simulates (R := Virtual)
    (fun _ _ _ _ hV hg h => hV.step hg h) hguard (boot_virtual hboot hj hexe hx)
  exact ⟨w, hrun', hV.mirrors⟩

/-- While there is a free frame nothing is put out. -/
theorem spares_of_find (hk : k.Framed) (h : k.find ≠ none) : k.Spares e := by
  cases e with
  | fault addr random =>
    intro f k1 s v S hsel hS hres
    rcases selectPage_cases hsel with ⟨hfind, -⟩ | ⟨hnone, -⟩
    · obtain ⟨p, hp, -, hframe⟩ := hres.place
      have hheld : k.frames.Holds f (.page s v) := ⟨p, hp, hframe⟩
      have hmarked : k.memMap f = true := (hk.frames.own.marked_iff f).mpr ⟨_, hheld⟩
      have hfree : k.memMap f = false := (find_lt hfind).2
      cases hmarked.symm.trans hfree
    · exact absurd hnone h
  | _ => trivial

/-! ## A concrete run -/

/-- `Genuine`, as far as it can be evaluated. -/
def genuine (k : Kernel) : Event → Bool
  | .instr accesses registers =>
    match k.machineTable with
    | .ok (_, S) => decide (accesses = (k.machine S).accesses) &&
      match (k.machine S).oneInstruction with
      | .ok (.completed m) => decide (∀ x, registers x = m.registers x)
      | .ok (.raised _ _) => decide (∀ x, registers x = k.registers x)
      | .error _ => false
    | .error _ => false
  | .trap =>
    match k.machineTable with
    | .ok (_, S) =>
      match (k.machine S).oneInstruction with
      | .ok (.raised which _) => decide (which = .syscall)
      | _ => false
    | .error _ => false
  | .fatal _ _ => false
  | _ => true

theorem genuine_sound (h : k.genuine e = true) : k.Genuine e := by
  cases e with
  | instr accesses registers =>
    simp only [genuine] at h
    split at h
    · rename_i s S ht
      obtain ⟨ha, h⟩ := Bool.and_eq_true_iff.mp h
      split at h
      · rename_i m ho
        exact ⟨s, S, _, ht, of_decide_eq_true ha, ho, funext (of_decide_eq_true h)⟩
      · rename_i which m ho
        exact ⟨s, S, _, ht, of_decide_eq_true ha, ho, funext (of_decide_eq_true h)⟩
      · cases h
    · cases h
  | trap =>
    simp only [genuine] at h
    split at h
    · rename_i s S ht
      split at h
      · rename_i which m ho
        cases of_decide_eq_true h
        exact ⟨s, S, m, ht, ho⟩
      · cases h
    · cases h
  | fatal addr merged => cases h
  | _ => trivial

/-- One page of code: `addiu r4, r0, 55`, `sb r4, 100(r0)`, `syscall`. -/
def storeFile : NoffFile where
  bytes := [0xbadfad, 0, 40, 256, 0, 0, 0, 256, 0, 1024, 0x24040037, 0xa0040064, 12].flatMap
    encodeWord ++ List.replicate 244 0
  whole := by decide +kernel
  magic := by decide +kernel
  code_size := by decide +kernel
  initData_size := by decide +kernel
  uninitData_size := by decide +kernel

theorem storeFile_sound : storeFile.Sound := by
  have hstart : (NoffHeader.decode storeFile.bytes).code.start = 0 := by decide +kernel
  have hstop : (NoffHeader.decode storeFile.bytes).code.stop = 256 := by decide +kernel
  have hfile : (NoffHeader.decode storeFile.bytes).code.inFileAddr.toInt = 40 := by
    decide +kernel
  have hlength : storeFile.bytes.length = 296 := by decide +kernel
  have hempty : (NoffHeader.decode storeFile.bytes).initData.size.toInt = 0 := by decide +kernel
  refine ⟨fun v => ⟨?_, ?_⟩, fun a _ hd => ?_, fun v j hj b hb => ?_⟩
  · rintro ⟨-, hlow, hhigh, -⟩
    rw [hstop] at hlow hhigh
    simp only [pageSize] at hlow hhigh
    omega
  · rintro ⟨hpos, -⟩
    rw [hempty] at hpos
    cases hpos
  · have hlt := hd.2
    have hle := hd.1
    unfold Segment.stop at hlt
    rw [hempty] at hlt
    omega
  · -- the file ends with the code, so nothing strays from behind it
    unfold AddrSpace.strayByte at hb
    split at hb
    · rename_i hover
      have hpos : 0 < (NoffHeader.decode storeFile.bytes).initData.size.toInt := hover.1.1
      rw [hempty] at hpos
      cases hpos
    · split at hb
      · rename_i hover
        have hge : (NoffHeader.decode storeFile.bytes).code.stop ≤ (v * pageSize + j : Int) :=
          hover.1.2.1
        change (NoffHeader.decode storeFile.bytes).code.fileByte storeFile.bytes _ = some b at hb
        rw [hstop] at hge
        unfold Segment.fileByte at hb
        rw [hstart, hfile] at hb
        split at hb
        · rw [List.getElem?_eq_none (by rw [hlength]; omega)] at hb
          cases hb
        · cases hb
      · cases hb

/-- The machine started on that program, under FIFO. -/
def storeConfig : Config where
  swapChoice := 1
  exe := fun name => if name = [97] then some storeFile else none
  program := [97]
  junk := fun _ => false

/-- The registers of the program behind its first instruction, and behind its second. -/
def storeRegisters (pc : BitVec 32) : Registers :=
  ((((Registers.init 9).write 4 55).write prevPCReg (pc - 4)).write pcReg pc).write nextPCReg
    (pc + 4)

/-- The first process stores 55 at address 100, is interrupted and starts another process
of the same program. That one brings in its page and makes its first instruction before
the first process goes on. -/
def storeSample : List Event :=
  faultSample 0 ++ [.instr [.read 0 .word] (storeRegisters 4),
    .instr [.read 4 .word, .write 100 .byte 55] (storeRegisters 8), .tick true,
    .instr [.read 8 .word] (storeRegisters 8), .trap, .exec [97] (fun _ => false) true,
    .enable false, .create] ++
  faultSample 0 ++ [.instr [.read 0 .word] (storeRegisters 4), .tick true]

theorem programs_run_alone_sample : ∃ (k0 k : Kernel) (w : World),
    boot storeConfig = .ok k0 ∧ Run step k0 storeSample k ∧
    Run World.step (fun _ => .start storeFile) (labels step happening k0 storeSample) w ∧
    ((w 0).image 100 = 55 ∧ (w 0).registers 2 = 1) ∧
    (w 1).image 100 = 0 ∧ (w 1).registers 4 = 55 := by
  have hdemo : storeConfig.boots (fun k0 =>
      guards step (fun k e => k.genuine e && decide (k.find ≠ none)) k0 storeSample &&
      continues step k0 storeSample fun k =>
        decide (k.Resident 0 0 0 ∧ k.mainMemory 100 = 55 ∧ k.frames.home 0 = some 0) &&
        decide (k.Resident 1 0 1 ∧ k.mainMemory 356 = 0 ∧ k.frames.home 1 = some 1) &&
        decide (k.currentThread = 0 ∧ k.here = .user ∧ k.registers 2 = 1) &&
        decide (k.cont 1 = .user ∧ k.userRegisters 1 4 = 55)) = true := by
    decide +kernel
  obtain ⟨k0, hboot, hp⟩ := Config.boots_iff.mp hdemo
  obtain ⟨hguards, hcont⟩ := Bool.and_eq_true_iff.mp hp
  obtain ⟨k, hrun, hend⟩ := continues_iff.mp hcont
  simp only [Bool.and_eq_true, decide_eq_true_eq] at hend
  obtain ⟨⟨⟨⟨hres, hbyte, hhome⟩, hres', hbyte', hhome'⟩, hcur, hhere, hresult⟩, hcont', hreg'⟩ :=
    hend
  have hclear : ∀ e ∈ storeSample, e.Clear := by
    simp [storeSample, faultSample, Event.Clear]
  have h0 : k0.frames.Unswapped := boot_unswapped hboot fun _ => rfl
  have hguard : Guarded step (fun k e => e.Clear ∧ k.Genuine e ∧ k.Spares e) k0 storeSample := by
    refine ((guarded_of_guards hguards).and (.of_events fun e he _ => hclear e he)).strengthen
      (I := fun k => k.Framed ∧ k.frames.Unswapped)
      (fun _ _ _ hI hg hs => hI.1.step_unswapped hI.2 hg.2 hs) (fun k e hI hg => ?_)
      ⟨boot_framed hboot, @h0⟩
    obtain ⟨hgenuine, hfind⟩ := Bool.and_eq_true_iff.mp hg.1
    exact ⟨hg.2, genuine_sound hgenuine, spares_of_find hI.1 (of_decide_eq_true hfind)⟩
  have hsound (name : FileName) (x : NoffFile)
      (hx : (if name = [97] then some storeFile else none) = some x) : x.Sound := by
    split at hx
    · cases hx
      exact storeFile_sound
    · cases hx
  obtain ⟨w, hrun', hM⟩ :=
    programs_run_alone hboot (fun _ => rfl) hsound (x := storeFile) rfl hrun hguard
  have himage {s : SpacePtr} {f : Nat} {t : ThreadPtr} (hres : k.Resident s 0 f)
      (hhome : k.frames.home t = some s) : k.mainMemory (pageSize * f + 100) = (w t).image 100 := by
    obtain ⟨S, hS, hv, hvalid, hphys⟩ := hres
    have hloaded := (hM.memory hhome hS).2.loaded 0 hv f hvalid hphys
    exact frameBytes_eq_pageBytes.mp hloaded 100 (by decide)
  have hlive {t : ThreadPtr} {s : SpacePtr} (hhome : k.frames.home t = some s) :
      (k.live t).isSome := by
    obtain ⟨T, hT, -⟩ := frames_home.mp hhome
    rw [hT]
    rfl
  have hregs := hM.registers.running (hcur ▸ hlive hhome) (by rw [hhere]; exact not_booting_user)
  have hregs' := hM.registers.saved 1 (by rw [hcur]; exact Nat.one_ne_zero) (hlive hhome')
    (by rw [hcont']; exact not_booting_user)
  rw [hcur] at hregs
  exact ⟨k0, k, w, hboot, hrun, hrun', ⟨(himage hres hhome).symm.trans hbyte, by
    rw [← hregs]; exact hresult⟩, (himage hres' hhome').symm.trans hbyte', by
    rw [← hregs']; exact hreg'⟩

end Kernel
end Nachos

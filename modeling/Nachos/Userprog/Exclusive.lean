import Nachos.Userprog.Preemption

/-! Page faults as single steps. The machine in which a fault is never
interrupted is the real one under a schedule in which the timer does not fire
inside a fault (`atomicStep_run`); nothing is ever in flight there, and every
frame that is marked belongs to exactly one page. -/

namespace Nachos
open Lib

namespace Kernel

/-- No fault is suspended, and no page lock is held. -/
structure Quiet (k : Kernel) : Prop where
  locks : ∀ f, k.pageLock f = ⟨1, []⟩
  conts : ∀ t, (k.cont t).flight = none

/-- Page `v` of space `s` is mapped to frame `f`. -/
def Maps (k : Kernel) (s : SpacePtr) (v f : Nat) : Prop :=
  ∃ S, k.space s = some S ∧ v < S.numPages ∧ (S.pageTable v).physicalPage = f

/-- A marked frame belongs to exactly one page, whose entry is valid and whose
space is that of the live thread in `ipt`; an unmarked one belongs to none. -/
structure FrameOwned (k : Kernel) (f : Nat) : Prop where
  marked : k.memMap f = true → ∃ s v, k.Maps s v f ∧ (∀ s' v', k.Maps s' v' f → s' = s ∧ v' = v) ∧
    (∃ S, k.space s = some S ∧ (S.pageTable v).valid = true) ∧
    ∃ t T, k.ipt f = some t ∧ k.live t = some T ∧ T.space = some s
  unmarked : k.memMap f = false → ∀ s v, ¬ k.Maps s v f

variable {k k' : Kernel} {n : Next} {e : Event} {es : List Event} {s : SpacePtr} {v f : Nat}

theorem maps_iff : k.Maps s v f ↔ k.frames.Holds f (.page s v) := by
  constructor
  · intro ⟨S, hS, hv, hf⟩
    exact ⟨_, frames_place.mpr ⟨S, hS, AddrSpace.place_eq_some.mpr ⟨hv, rfl⟩⟩, hf⟩
  · intro ⟨p, hp, hf⟩
    obtain ⟨S, hS, hp⟩ := frames_place.mp hp
    obtain ⟨hv, rfl⟩ := AddrSpace.place_eq_some.mp hp
    exact ⟨S, hS, hv, hf⟩

/-! ## Faults as single steps are a schedule -/

/-- `fillPage` does not look at where threads stand. -/
theorem fillPage_cont (k : Kernel) (C : ThreadPtr → Cont) (s : SpacePtr) (w : Int) (f : Nat) :
    { k with cont := C }.fillPage s w f =
      (k.fillPage s w f).map fun k' => { k' with cont := C } := by
  unfold fillPage
  dsimp only
  cases k.space s with
  | none => rfl
  | some S =>
    dsimp only
    split
    · split
      · rfl
      · unfold loadImage
        dsimp only
        cases AddrSpace.buildPage _ _ _ k.mainMemory <;> rfl
    · rfl

theorem lockV_cont (k : Kernel) (C : ThreadPtr → Cont) (f : Nat) :
    { k with cont := C }.lockV f = { k.lockV f with cont := C } := by
  unfold lockV
  dsimp only
  split <;> rfl

/-- Giving a free page lock back leaves the locks as they were. -/
theorem lockV_lockTake {k2 : Kernel} (hl : ∀ f, k.pageLock f = ⟨1, []⟩)
    (h : k2.pageLock = (k.lockTake f).pageLock) (g : Nat) : (k2.lockV f).pageLock g = ⟨1, []⟩ := by
  have hf : k2.pageLock f = ⟨0, []⟩ := by
    rw [h]
    simp [lockTake, setLock, hl]
  have hV : (k2.lockV f).pageLock = Function.update k2.pageLock f ⟨1, []⟩ := by
    unfold lockV
    rw [hf]
    rfl
  rw [hV, h]
  simp only [lockTake, setLock, Function.update_apply]
  split
  · rfl
  · exact hl g

theorem loadPage_quiet {addr : BitVec 32} {random : Nat} (hq : k.Quiet)
    (h : k.loadPage s addr random = .ok k') : k'.Quiet := by
  obtain ⟨f, k1, hsel, hbranch⟩ := loadPage_cases h
  have hm := (selectPage_memoryOnly hsel).1
  have hlocks1 : k1.pageLock = k.pageLock := (congrArg Kernel.pageLock hm.rest :)
  have hcont1 : k1.cont = k.cont := (congrArg Kernel.cont hm.rest :)
  rcases hbranch with ⟨-, -, k2, hfill, rfl⟩ | ⟨-, h⟩
  · have hm2 := fillPage_memoryOnly hfill
    have hlocks2 : k2.pageLock = ((k1.appendPage f).lockTake f).pageLock :=
      (congrArg Kernel.pageLock hm2.rest :)
    refine ⟨fun g => lockV_lockTake (k := k1.appendPage f) (fun g => ?_) hlocks2 g, fun t => ?_⟩
    · change k1.pageLock g = _
      rw [hlocks1]
      exact hq.locks g
    · have hcont2 : k2.cont = k1.cont := (congrArg Kernel.cont hm2.rest :)
      obtain ⟨st, r, l, hV⟩ := k2.lockV_eq f
      rw [hV]
      change (k2.cont t).flight = none
      rw [hcont2, hcont1]
      exact hq.conts t
  · have hm' := hm.trans (fillPage_memoryOnly h)
    refine ⟨?_, ?_⟩
    · rw [show k'.pageLock = k.pageLock from (congrArg Kernel.pageLock hm'.rest :)]
      exact hq.locks
    · rw [show k'.cont = k.cont from (congrArg Kernel.cont hm'.rest :)]
      exact hq.conts

theorem step_fault {addr : BitVec 32} {random : Nat} (hu : k.atUser) (hflt : k.Faults addr)
    (h : k.pageFault addr random = .ok k') : k.step (.fault addr random) = .ok k' := by
  refine bind_eq_ok.mpr ⟨(k', .stay), ?_, rfl⟩
  exact ite_error_eq_ok.mpr ⟨⟨hu, hflt⟩, bind_eq_ok.mpr ⟨k', h, rfl⟩⟩

/-- It does not matter how far the thread got in between, if it comes back to where it
has been. -/
theorem lockV_goTo {conts : ThreadPtr → Cont} {c : Cont} {f : Nat}
    (hc : Function.update conts k.currentThread c = k.cont) :
    ({ k with cont := conts }.lockV f).goTo c = k.lockV f := by
  rw [lockV_cont]
  obtain ⟨st, r, l, hV⟩ := k.lockV_eq f
  rw [hV]
  unfold goTo
  dsimp only
  rw [hc]

/-- A page fault in one step is a run of the machine. -/
theorem loadPage_run {addr : BitVec 32} {random : Nat} (hu : k.atUser)
    (hflt : k.Faults addr) (hs : k.currentSpace = .ok s)
    (h : (k.raise addr).loadPage s addr random = .ok k') :
    ∃ es, Run step k es k' ∧ ∀ e ∈ es, e.Clear := by
  obtain ⟨f, k1, hsel, hbranch⟩ := loadPage_cases h
  have hm := (selectPage_memoryOnly hsel).1
  have hcont1 : k1.cont = k.cont := (congrArg Kernel.cont hm.rest :)
  have hcur1 : k1.currentThread = k.currentThread := (congrArg Kernel.currentThread hm.rest :)
  have hspace1 : k1.spaceOf k.currentThread = k.spaceOf k.currentThread := by
    unfold spaceOf
    rw [show k1.thread = k.thread from (congrArg Kernel.thread hm.rest :)]
  rcases hbranch with ⟨hfifo, hfree, k2, hfill, rfl⟩ | ⟨hfifo, h⟩
  · -- FIFO: the fault, the lock that is free, the rest of the fault
    change k.swapChoice = 1 at hfifo
    have hm2 := fillPage_memoryOnly hfill
    have hcur2 : k2.currentThread = k.currentThread :=
      (congrArg Kernel.currentThread hm2.rest :).trans hcur1
    have hcont2 : k2.cont = k.cont := (congrArg Kernel.cont hm2.rest :).trans hcont1
    let c : Bool := decide (k.here = .call)
    let w := pageOfAddr addr
    let ka := (k1.appendPage f).goTo (.locking w f c)
    let kb := (ka.lockTake f).goTo (.locked w f c)
    have hfault : k.step (.fault addr random) = .ok ka := by
      refine step_fault hu hflt (bind_eq_ok.mpr ⟨s, hs, bind_eq_ok.mpr ⟨(f, k1), hsel, ?_⟩⟩)
      rw [if_pos hfifo]
    have hlock : ka.step (.lock false) = .ok kb := by
      refine bind_eq_ok.mpr ⟨(kb, .tick false), ?_, rfl⟩
      change ka.lock false = _
      unfold lock
      rw [show ka.here = .locking w f c from here_goTo _ _]
      exact if_neg hfree
    have hfill' : kb.fillPage s w f = .ok { k2 with cont := kb.cont } := by
      have := fillPage_cont ((k1.appendPage f).lockTake f) kb.cont s w f
      rw [hfill] at this
      exact this
    have hback : back c = k.here := by
      rcases hu with hu | hu <;> simp [c, back, hu]
    have hload : kb.step (.load false) = .ok (k2.lockV f) := by
      have hend : ({ k2 with cont := kb.cont }.lockV f).goTo (back c) = k2.lockV f := by
        refine lockV_goTo ?_
        rw [hcont2, hcur2, hback]
        change Function.update (Function.update (Function.update k1.cont k1.currentThread _)
          k1.currentThread _) k.currentThread k.here = _
        rw [hcur1, Function.update_idem, Function.update_idem, hcont1]
        exact Function.update_eq_self _ _
      refine bind_eq_ok.mpr ⟨(k2.lockV f, .tick false), ?_, rfl⟩
      change kb.load false = _
      unfold load
      rw [show kb.here = .locked w f c from here_goTo _ _]
      refine bind_eq_ok.mpr ⟨s, ?_, bind_eq_ok.mpr ⟨_, hfill', by rw [hend]⟩⟩
      have hsame : kb.spaceOf kb.currentThread = some s := by
        change k1.spaceOf k1.currentThread = some s
        rw [hcur1, hspace1]
        exact currentSpace_eq_ok hs
      unfold currentSpace
      rw [hsame]
    exact ⟨[.fault addr random, .lock false, .load false],
      .cons hfault (.cons hlock (.cons hload .nil)), by simp [Event.Clear]⟩
  · -- otherwise the event is the same
    change ¬ k.swapChoice = 1 at hfifo
    refine ⟨[.fault addr random], .cons (step_fault hu hflt ?_) .nil, by simp [Event.Clear]⟩
    refine bind_eq_ok.mpr ⟨s, hs, bind_eq_ok.mpr ⟨(f, k1), hsel, ?_⟩⟩
    rw [if_neg hfifo]
    exact h

theorem Quiet.of_eq (hq : k.Quiet) (hl : k'.pageLock = k.pageLock) (hc : k'.cont = k.cont) :
    k'.Quiet := ⟨by rw [hl]; exact hq.locks, by rw [hc]; exact hq.conts⟩

theorem Quiet.goTo {c : Cont} (hq : k.Quiet) (hc : c.flight = none) : (k.goTo c).Quiet := by
  refine ⟨hq.locks, fun t => ?_⟩
  unfold Kernel.goTo
  dsimp only
  rw [Function.update_apply]
  split
  · exact hc
  · exact hq.conts t

theorem MemoryOnly.quiet (h : MemoryOnly k k') (hq : k.Quiet) : k'.Quiet :=
  hq.of_eq (congrArg Kernel.pageLock h.rest :) (congrArg Kernel.cont h.rest :)

theorem terminate_quiet (hi : k.Inv) (hq : k.Quiet) (h : k.terminate = .ok k') : k'.Quiet := by
  obtain ⟨T, hT, -⟩ := hi.running
  obtain ⟨s, hs, -⟩ := hi.procs.space hT
  obtain ⟨S, m, st, -, -, hk⟩ := terminate_eq_ok (live_eq_some hT).2 hs h
  exact hq.of_eq (by rw [hk]) (by rw [hk])

theorem Quiet.flight_here {c : Cont} (hq : k.Quiet) (hhere : k.here = c) : c.flight = none := by
  subst hhere
  exact hq.conts k.currentThread

/-- The events that a machine without suspended faults shares with the real
one leave it without. -/
theorem act_quiet (hi : k.Inv) (hq : k.Quiet) (hf : ∀ addr random, e ≠ .fault addr random)
    (h : k.act e = .ok (k', n)) : k'.Quiet := by
  cases acts_of_act h with
  | instr _ h1 => exact ((accesses_memoryOnly h1).quiet hq).of_eq rfl rfl
  | tick _ => exact hq
  | @fault addr random => exact absurd rfl (hf addr random)
  | lock h =>
    -- the running thread does not stand at a page lock
    obtain ⟨v, f, c, hhere, -⟩ := lock_cases h
    cases hq.flight_here hhere
  | load h =>
    obtain ⟨v, f, c, s, k1, hhere, -⟩ := load_cases h
    cases hq.flight_here hhere
  | trap _ => exact Quiet.goTo ⟨hq.locks, hq.conts⟩ rfl
  | copy _ h1 => exact (access_memoryOnly h1).quiet hq
  | @ret result _ =>
    cases result with
    | none => exact hq.goTo rfl
    | some r => exact Quiet.goTo ⟨hq.locks, hq.conts⟩ rfl
  | exec hc h =>
    obtain ⟨hi', ha'⟩ := hi.back hc
    have hq' : (k.goTo .user).Quiet := hq.goTo rfl
    rcases exec_cases hi' ha' h with ⟨-, rfl, -⟩ | ⟨x, k1, -, hnew, -, rfl⟩
    · exact hq'
    · obtain ⟨-, hcont, -, hlock, -⟩ :=
        exec_spawned (r := BitVec.ofNat 32 (k.goTo .user).threadID) hnew
      refine ⟨fun f => (congrFun hlock f).trans (hq'.locks f), fun t => ?_⟩
      rw [hcont, Function.update_apply]
      split
      · rfl
      · exact hq'.conts t
  | join hc h =>
    obtain ⟨hi', ha'⟩ := hi.back hc
    have hq' : (k.goTo .user).Quiet := hq.goTo rfl
    rcases join_target hi' ha' h with ⟨-, rfl, -⟩ | ⟨c, -, -, rfl⟩
    · exact hq'
    · exact hq'.of_eq rfl rfl
  | yield _ => exact hq.goTo rfl
  | exit _ h1 => exact terminate_quiet hi hq h1
  | @fatal addr _ _ _ h1 =>
    have hr : (k.raise addr).Inv := hi.registers _ (by simp)
    exact terminate_quiet hr ⟨hq.locks, hq.conts⟩ h1
  | enable _ => exact hq.goTo rfl
  | create _ h1 =>
    obtain ⟨_, _, -, -, hk, -⟩ := create_eq_ok h1
    exact (hq.of_eq (congrArg Kernel.pageLock hk :) (congrArg Kernel.cont hk :)).goTo rfl

/-- A step with the fault as one step is a run of the real machine. -/
theorem atomicStep_run (hi : k.Inv) (hq : k.Quiet) (h : k.atomicStep e = .ok k') :
    ∃ es, Run step k es k' ∧ k'.Quiet ∧ (e.Clear → ∀ e' ∈ es, e'.Clear) := by
  have hsingle (hf : ∀ addr random, e ≠ .fault addr random) (h : k.step e = .ok k') :
      ∃ es, Run step k es k' ∧ k'.Quiet ∧ (e.Clear → ∀ e' ∈ es, e'.Clear) := by
    obtain ⟨⟨k1, n⟩, hact, hdisp⟩ := bind_eq_ok.mp h
    obtain ⟨hr, -⟩ := dispatch_frame hdisp
    refine ⟨[e], .cons h .nil, (act_quiet hi hq hf hact).of_eq (congrArg Kernel.pageLock hr :)
      (congrArg Kernel.cont hr :), fun hc e' he => ?_⟩
    rw [List.mem_singleton.mp he]
    exact hc
  cases e with
  | fault addr random =>
    obtain ⟨⟨hu, hflt⟩, h⟩ := ite_error_eq_ok.mp h
    obtain ⟨s, hs, h⟩ := bind_eq_ok.mp h
    obtain ⟨es, hrun, hclear⟩ := loadPage_run hu hflt hs h
    have hraise : (k.raise addr).Quiet := hq.of_eq rfl rfl
    exact ⟨es, hrun, loadPage_quiet hraise h, fun _ => hclear⟩
  | lock fire => cases h
  | load fire => cases h
  | _ => exact hsingle (by simp) h

theorem atomic_run {k0 : Kernel} (hi : k0.Inv) (hq : k0.Quiet) (h : Run atomicStep k0 es k)
    (hes : ∀ e ∈ es, e.Clear) : ∃ es', Run step k0 es' k ∧ k.Quiet ∧ ∀ e ∈ es', e.Clear := by
  induction h with
  | nil => exact ⟨[], .nil, hq, nofun⟩
  | @cons k0 e k1 es k hs _ ih =>
    obtain ⟨es1, hrun1, hq1, hc1⟩ := atomicStep_run hi hq hs
    have hi1 : k1.Inv := hrun1.inv (fun _ _ _ hi hs => step_inv hi hs) hi
    obtain ⟨es2, hrun2, hq2, hc2⟩ := ih hi1 hq1 fun e he => hes e (List.mem_cons_of_mem _ he)
    refine ⟨es1 ++ es2, hrun1.append hrun2, hq2, fun e he => ?_⟩
    rcases List.mem_append.mp he with he | he
    · exact hc1 (hes _ List.mem_cons_self) e he
    · exact hc2 e he

/-! ## Ownership -/

theorem Quiet.not_inFlight (hq : k.Quiet) (f : Nat) : ¬ k.InFlight f := by
  rintro ⟨t, T, w, -, hw⟩
  rw [hq.conts t] at hw
  cases hw

theorem Framed.frameOwned (hk : k.Framed) (hq : k.Quiet) (f : Nat) : k.FrameOwned f := by
  constructor
  · intro hm
    obtain ⟨h, hh⟩ := (hk.frames.own.marked_iff f).mp hm
    cases h with
    | fault t => exact absurd (inFlight_iff.mpr ⟨t, hh⟩) (hq.not_inFlight f)
    | page s v =>
      refine ⟨s, v, maps_iff.mpr hh, fun s' v' h' => ?_, ?_⟩
      · cases hk.frames.own.unique (maps_iff.mp h') hh
        exact ⟨rfl, rfl⟩
      · obtain ⟨p, hp, hpf⟩ := hh
        have hin := hk.frames.in_of_frame hp hpf
        obtain ⟨t, hi, hh⟩ := hk.frames.owner hp hin
        obtain ⟨T, hT, hs⟩ := frames_home.mp hh
        obtain ⟨S, hS, hp⟩ := frames_place.mp hp
        obtain ⟨-, rfl⟩ := AddrSpace.place_eq_some.mp hp
        exact ⟨⟨S, hS, hin.2⟩, t, T, hi, hT, hs⟩
  · intro hm s v h
    have := hk.frames.marked_of_holds (maps_iff.mp h)
    rw [show k.frames.marked f = false from hm] at this
    cases this

/-- A frame is always found. -/
theorem Framed.selectPage_ok (hk : k.Framed) (hq : k.Quiet)
    (hc : k.swapChoice = 1 ∨ k.swapChoice = 2) (random : Nat) :
    ∃ r, k.selectPage random = .ok r := by
  cases hfull : k.find with
  | some f => exact ⟨_, by unfold selectPage; rw [hfull]⟩
  | none =>
    have hfound {f : Nat} (hf : f < numPhysPages) : k.VictimFound f :=
      hk.victimFound (marked_of_full hfull hf) (hq.not_inFlight f)
    rcases hc with hc | hc
    · have hlt := hk.front_lt hc hfull
      have hvictim : k.victim random = .ok (k.pageList.headD 0,
          { k with pageList := k.pageList.tail }) := if_pos hc
      exact selectPage_of_victim hfull hvictim hlt (hfound hlt)
    · have hlt : random % 32 < numPhysPages := Nat.mod_lt _ (by decide)
      have hvictim : k.victim random = .ok (random % 32, k) :=
        (if_neg (by rw [hc]; decide)).trans (if_pos hc)
      exact selectPage_of_victim hfull hvictim hlt (hfound hlt)

/-- A valid entry of the machine's page table leads to a frame that exists. -/
theorem Framed.no_busError (hk : k.Framed) (hu : k.atUser) (addr : BitVec 32) (width : Width)
    (writing : Bool) : k.translate addr width writing ≠ .ok (.exception .busError) := by
  intro h
  obtain ⟨s, S, hsp, hpt, hS, hsize⟩ := (hk.inv.atHome_of_atUser hu).table
  have htab : k.machineTable = .ok (s, S) := by
    unfold machineTable
    rw [hpt]
    dsimp only
    rw [hS]
  unfold translate at h
  rw [htab] at h
  have h := Except.ok.inj h
  unfold Nachos.translate at h
  split at h
  · cases h
  · split at h
    · cases h
    · rename_i hlt
      rw [hsize] at hlt
      split at h
      · cases h
      · rename_i hval
        have hp := frames_place.mpr
          ⟨S, hS, AddrSpace.place_eq_some.mpr ⟨Nat.not_le.mp hlt, rfl⟩⟩
        rcases hk.frames.places hp with ho | ⟨f, hin⟩
        · exact absurd ho.2 (by simpa using hval)
        · have hf : f < 32 :=
            hk.frames.range (hk.frames.marked_of_holds (h := .page s _) ⟨_, hp, hin.1⟩)
          have hphys : (S.pageTable (vpnOf addr)).physicalPage = f := hin.1
          unfold TranslationEntry.access at h
          rw [hphys, toUnsigned_of_nonneg (by omega) (by omega)] at h
          split at h
          · cases h
          · rw [if_neg (by simp only [numPhysPages]; omega)] at h
            cases h

/-- With every page fault one step, and the `swapped` flags clear at first: in
every state that can be reached each frame has its one owner or none, a fault
finds its frame, and no access gives a bus error. -/
theorem frames_exclusive {c : Config} {k0 : Kernel} (hboot : boot c = .ok k0)
    (hc : c.swapChoice = 1 ∨ c.swapChoice = 2) (hj : ∀ v, c.junk v = false)
    (hes : ∀ e ∈ es, e.Clear) (hrun : Run atomicStep k0 es k) :
    (∀ f, f < numPhysPages → k.FrameOwned f) ∧ (∀ random, ∃ r, k.selectPage random = .ok r) ∧
      (k.atUser → ∀ addr width writing,
        k.translate addr width writing ≠ .ok (.exception .busError)) := by
  have hq0 : k0.Quiet := by
    obtain ⟨x, numPages, -, -, hk⟩ := boot_eq_ok hboot
    rw [hk]
    exact ⟨fun _ => rfl, fun _ => rfl⟩
  obtain ⟨es', hrun', hq, hes'⟩ := atomic_run (boot_inv hboot) hq0 hrun hes
  have hk : k.Framed := (boot_framed hboot).run hrun' (clear_run hboot hj hes')
  refine ⟨fun f _ => hk.frameOwned hq f, hk.selectPage_ok hq ?_, hk.no_busError⟩
  rw [run_swapChoice hboot hrun']
  exact hc

theorem frames_exclusive_sample : ∃ (k0 k : Kernel), boot (.sample 2) = .ok k0 ∧
    Run atomicStep k0 [.fault 0 0, .trap, .exec [97] (fun _ => false) true, .enable false,
      .create, .fault 256 0, .trap, .exit] k ∧
    (∀ f, f < numPhysPages → k.FrameOwned f) := by
  have hdemo : (Config.sample 2).boots (fun k0 => continues atomicStep k0 [.fault 0 0, .trap,
      .exec [97] (fun _ => false) true, .enable false, .create, .fault 256 0, .trap, .exit]
      fun _ => true) = true := by
    decide +kernel
  obtain ⟨k0, hboot, hdemo⟩ := Config.boots_iff.mp hdemo
  obtain ⟨k, hrun, -⟩ := continues_iff.mp hdemo
  exact ⟨k0, k, hboot, hrun, (frames_exclusive hboot (.inr rfl) (fun _ => rfl)
    (by simp [Event.Clear]) hrun).1⟩

end Kernel
end Nachos

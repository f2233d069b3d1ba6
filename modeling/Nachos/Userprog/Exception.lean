import Nachos.Userprog.AddrSpace

/-! The kernel as a state machine (exception.cc, progtest.cc). One event is a
stretch of code that cannot be interrupted: a user instruction, a tick, a piece
of an exception handler. `act` is what the running thread does in it, `dispatch`
what becomes of the CPU at its end. An event is only possible where the running
thread stands at the code in question; all choices that are not the kernel's
(what the program computes, what `Random()` returns, whether the timer fires)
are part of the event. -/

namespace Nachos
open Lib

inductive Event
  /-- A user instruction without exception: its memory accesses and the
  registers it leaves. -/
  | instr (accesses : List Access) (registers : Registers)
  /-- A `OneTick`, of `Machine::Run` or of a `SetLevel` that turns interrupts on. -/
  | tick (fire : Bool)
  /-- A page fault at `addr`, up to the page lock. -/
  | fault (addr : BitVec 32) (random : Nat)
  /-- `pageLock[f]->P()`. -/
  | lock (fire : Bool)
  /-- `loadPage` behind `P()`, and `pageLock[f]->V()`. -/
  | load (fire : Bool)
  /-- A system call, up to the switch on its number. -/
  | trap
  /-- `ReadMem` or `WriteMem` of a system call, without exception. -/
  | copy (access : Access)
  /-- The end of a system call that only leaves a result, or none. -/
  | ret (result : Option (BitVec 32))
  /-- `SC_Exec` from the point where the name has been copied in. -/
  | exec (filename : FileName) (junk : Nat → Bool) (fire : Bool)
  | join
  | yield
  | exit
  /-- An exception other than a page fault. `merged` tells whether the two
  literals `"main"` of system.cc and exception.cc are one object. -/
  | fatal (addr : BitVec 32) (merged : Bool)
  /-- `InterruptEnable` of a new thread. -/
  | enable (fire : Bool)
  /-- `processCreator` of a new thread. -/
  | create

namespace Kernel

/-! ## Page faults -/

/-- Where a page fault leads back to. -/
def back (inCall : Bool) : Cont := if inCall then .call else .user

def atUser (k : Kernel) : Prop := k.here = .user ∨ k.here = .call

instance (k : Kernel) : Decidable k.atUser := inferInstanceAs (Decidable (_ ∨ _))

/-- `Translate` refuses `addr` with a page fault. -/
def Faults (k : Kernel) (addr : BitVec 32) : Prop :=
  ∃ s S, k.machineTable = .ok (s, S) ∧ vpnOf addr < k.pageTableSize ∧
    (S.pageTable (vpnOf addr)).valid = false

instance (k : Kernel) (addr : BitVec 32) : Decidable (k.Faults addr) :=
  match h : k.machineTable with
  | .error _ => .isFalse fun ⟨_, _, h', _⟩ => by rw [h] at h'; cases h'
  | .ok (s, S) =>
    decidable_of_iff (vpnOf addr < k.pageTableSize ∧ (S.pageTable (vpnOf addr)).valid = false)
      ⟨fun h' => ⟨s, S, h, h'⟩, fun ⟨_, _, h', h''⟩ => by rw [h] at h'; cases h'; exact h''⟩

/-- The registers at the entry of the handler. -/
def raise (k : Kernel) (addr : BitVec 32) : Kernel := { k with registers := k.registers.raise addr }

/-- The running thread's space, which the handlers dereference. -/
def currentSpace (k : Kernel) : Except Fault SpacePtr :=
  match k.spaceOf k.currentThread with
  | none => .error .undefined
  | some s => .ok s

/-- A page fault up to the page lock, or to its end where no lock is taken. -/
def pageFault (k : Kernel) (addr : BitVec 32) (random : Nat) : Except Fault Kernel := do
  let s ← k.currentSpace
  let choice ← (k.raise addr).selectPage random
  if k.swapChoice = 1 then
    .ok ((choice.2.appendPage choice.1).goTo
      (.locking (pageOfAddr addr) choice.1 (k.here = .call)))
  else choice.2.fillPage s (pageOfAddr addr) choice.1

def lock (k : Kernel) (fire : Bool) : Except Fault (Kernel × Next) :=
  match k.here with
  | .locking v f c =>
    if (k.pageLock f).value = 0 then .ok (k.lockWait f, .sleep)
    else .ok ((k.lockTake f).goTo (.locked v f c), .tick fire)
  | _ => .error .disabled

def load (k : Kernel) (fire : Bool) : Except Fault (Kernel × Next) :=
  match k.here with
  | .locked v f c => do
    let s ← k.currentSpace
    let k ← k.fillPage s v f
    .ok ((k.lockV f).goTo (back c), .tick fire)
  | _ => .error .disabled

/-! ## System calls -/

def trap (k : Kernel) : Kernel :=
  { k with registers := (k.registers.raise 0).advance }.goTo .call

def writeRegister (k : Kernel) (num : Fin numTotalRegs) (value : BitVec 32) : Kernel :=
  { k with registers := k.registers.write num value }

/-- `new Thread`, with its space, its ID and its place on the active list. -/
def newThread (k : Kernel) (s : SpacePtr) : Kernel :=
  { k with
    thread := Function.update k.thread k.nextThread
      (some ⟨k.threadID, none, false, false, some s⟩)
    status := Function.update k.status k.nextThread .justCreated
    cont := Function.update k.cont k.nextThread .threadRoot
    nextThread := k.nextThread + 1
    activeThreads := k.activeThreads ++ [k.nextThread]
    threadID := k.threadID + 1 }

/-- `SC_Exec` once the file is open and its space built: a thread for it, with
its ID as the result, or an error code. -/
def startChild (k : Kernel) (s : SpacePtr) (fire : Bool) : Except Fault (Kernel × Next) :=
  match k.thread k.currentThread with
  | none => .error .undefined
  | some T =>
    if T.killNewChild then
      .ok ((k.writeRegister 2 (-(BitVec.ofNat 32 (k.threadID + 1)))).setThread k.currentThread
        fun T => { T with killNewChild := false }, .stay)
    else
      .ok (((k.writeRegister 2 (BitVec.ofNat 32 k.threadID)).newThread s).readyToRun k.nextThread,
        .tick fire)

/-- `SC_Exec` behind the copying of the name. -/
def exec (k : Kernel) (filename : FileName) (junk : Nat → Bool) (fire : Bool) :
    Except Fault (Kernel × Next) :=
  match k.exe filename with
  | none => .ok (k, .stay)
  | some executable => do
    let r ← k.newAddrSpace executable junk
    r.2.startChild r.1 fire

/-- `SC_Join`: the argument is in register 4. -/
def join (k : Kernel) : Kernel × Next :=
  let id := (k.registers 4).toInt
  if id < 0 then (k, .stay)
  else
    match k.getID id, (k.thread k.currentThread).map Thread.isJoined with
    | (some c, active), some false =>
      ((({ k with activeThreads := active }.setThread c fun C =>
        { C with parent := some k.currentThread }).setThread k.currentThread fun T =>
        { T with isJoined := true }), .sleep)
    | (_, active), _ => ({ k with activeThreads := active }, .stay)

/-- `SC_Exit` and the fatal exceptions: delete the space, if there is one, and
finish. -/
def terminate (k : Kernel) : Except Fault Kernel :=
  match k.spaceOf k.currentThread with
  | none => .ok k.finish
  | some s => do
    let k ← k.deleteSpace s
    .ok k.finish

/-! ## New threads -/

/-- `processCreator`. -/
def create (k : Kernel) : Except Fault Kernel := do
  let s ← k.currentSpace
  let k ← k.restoreSpace s
  { k with registers := Registers.init k.pageTableSize }.destroyFinished

/-! ## The machine -/

/-- What the running thread does in an event, and how it leaves the CPU. After
a yield `SC_Yield` restores the page table once more, which `Run` has just
done. -/
def act (k : Kernel) : Event → Except Fault (Kernel × Next)
  | .instr accesses registers =>
    if k.here = .user then do
      let k ← accesses.foldlM access k
      .ok ({ k with registers := registers }, .stay)
    else .error .disabled
  | .tick fire => if k.here.ticks then .ok (k, .tick fire) else .error .disabled
  | .fault addr random =>
    if k.atUser ∧ k.Faults addr then do
      let k ← k.pageFault addr random
      .ok (k, .stay)
    else .error .disabled
  | .lock fire => k.lock fire
  | .load fire => k.load fire
  | .trap => if k.here = .user then .ok (k.trap, .stay) else .error .disabled
  | .copy a =>
    if k.here = .call then do
      let k ← k.access a
      .ok (k, .stay)
    else .error .disabled
  | .ret result =>
    if k.here = .call then
      .ok (((result.map (k.writeRegister 2)).getD k).goTo .user, .stay)
    else .error .disabled
  | .exec filename junk fire =>
    if k.here = .call then (k.goTo .user).exec filename junk fire else .error .disabled
  | .join => if k.here = .call then .ok (k.goTo .user).join else .error .disabled
  | .yield => if k.here = .call then .ok (k.goTo .user, .yield) else .error .disabled
  | .exit =>
    if k.here = .call then do
      let k ← k.terminate
      .ok (k, .sleep)
    else .error .disabled
  | .fatal addr merged =>
    if k.atUser then
      -- the thread that `Initialize` made is the one named "main"
      if merged ∧ k.currentThread = 0 then .error (.assertion .mainException)
      else do
        let k ← (k.raise addr).terminate
        .ok (k, .sleep)
    else .error .disabled
  | .enable fire =>
    if k.here = .threadRoot then .ok (k.goTo .enabled, .tick fire) else .error .disabled
  | .create =>
    if k.here = .enabled then do
      let k ← k.create
      .ok (k.goTo .user, .stay)
    else .error .disabled

def step (k : Kernel) (e : Event) : Except Fault Kernel := do
  let r ← k.act e
  r.1.dispatch r.2

/-- The same machine with every page fault handled as one step. -/
def atomicStep (k : Kernel) : Event → Except Fault Kernel
  | .fault addr random =>
    if k.atUser ∧ k.Faults addr then do
      let s ← k.currentSpace
      (k.raise addr).loadPage s addr random
    else .error .disabled
  | .lock _ | .load _ => .error .disabled
  | e => k.step e

end Kernel

/-! ## Boot -/

/-- What a run starts from: the command line, the executables on the host, and
the uninitialised array of the first address space. -/
structure Config where
  swapChoice : Int
  exe : FileName → Option NoffFile
  program : FileName
  junk : Nat → Bool

/-- `Initialize`, and the locks `StartProcess` makes. -/
def Config.initialize (c : Config) : Kernel where
  thread := Function.update (fun _ => none) 0 (some ⟨0, none, false, false, none⟩)
  status := Function.update (fun _ => .justCreated) 0 .running
  nextThread := 1
  cont := fun _ => .user
  userRegisters := fun _ _ => 0
  currentThread := 0
  threadToBeDestroyed := none
  readyList := []
  activeThreads := []
  threadID := 1
  pageLock := fun _ => ⟨1, []⟩
  space := fun _ => none
  nextSpace := 0
  memMap := fun _ => false
  ipt := fun _ => none
  pageList := []
  swapChoice := c.swapChoice
  mainMemory := fun _ => 0
  registers := fun _ => 0
  pageTable := none
  pageTableSize := 0
  exe := c.exe
  hostDir := fun _ => none
  hostData := fun _ => []
  nextInode := 0

/-- `StartProcess`, up to `machine->Run()`. -/
def boot (c : Config) : Except Fault Kernel :=
  match c.exe c.program with
  | none => .error .halted
  | some executable => do
    let r ← c.initialize.newAddrSpace executable c.junk
    let k ← (r.2.setThread 0 fun T => { T with space := some r.1 }).restoreSpace r.1
    .ok { k with registers := Registers.init k.pageTableSize }

/-- A state the machine can be in. -/
def Reachable (k : Kernel) : Prop :=
  ∃ c es k0, boot c = .ok k0 ∧ Run Kernel.step k0 es k

/-! ## Concrete runs -/

/-- The machine boots, into a state with `p`. -/
def Config.boots (c : Config) (p : Kernel → Bool) : Bool :=
  match boot c with
  | .error _ => false
  | .ok k0 => p k0

theorem Config.boots_iff {c : Config} {p : Kernel → Bool} :
    c.boots p = true ↔ ∃ k0, boot c = .ok k0 ∧ p k0 = true := by
  unfold Config.boots
  split
  · simp [*]
  · simp [*]

def Config.reaches (c : Config) (es : List Event) (p : Kernel → Bool) : Bool :=
  c.boots fun k0 => continues Kernel.step k0 es p

theorem Config.reaches_iff {c : Config} {es : List Event} {p : Kernel → Bool} :
    c.reaches es p = true ↔
      ∃ k0 k, boot c = .ok k0 ∧ Run Kernel.step k0 es k ∧ p k = true := by
  simp only [Config.reaches, Config.boots_iff, continues_iff]
  constructor
  · intro ⟨k0, hb, k, hr, hp⟩
    exact ⟨k0, k, hb, hr, hp⟩
  · intro ⟨k0, k, hb, hr, hp⟩
    exact ⟨k0, hb, k, hr, hp⟩

def encodeWord (n : Nat) : List UInt8 :=
  [n.toUInt8, (n / 256).toUInt8, (n / 65536).toUInt8, (n / 16777216).toUInt8]

/-- An executable: two instructions at address 0, 300 bytes of data at 512 that
follow the code in the file, and forty pages of uninitialised data. -/
def sampleFile : NoffFile where
  bytes := [0xbadfad, 0, 40, 8, 512, 48, 300, 812, 0, 10240, 0x8c040000, 0].flatMap encodeWord ++
    List.replicate 300 7
  whole := by decide +kernel
  magic := by decide +kernel
  code_size := by decide +kernel
  initData_size := by decide +kernel
  uninitData_size := by decide +kernel

/-- The machine started on that executable, the only file there is: `a`. -/
def Config.sample (swapChoice : Int) : Config where
  swapChoice := swapChoice
  exe := fun name => if name = [97] then some sampleFile else none
  program := [97]
  junk := fun _ => false

/-- Start another process from the sample file. -/
def execSample : List Event := [.trap, .exec [97] (fun _ => false) false]

/-- A page fault at the start of page `v` under FIFO, handled without losing the
CPU. -/
def faultSample (v : Nat) : List Event :=
  [.fault (BitVec.ofNat 32 (v * pageSize)) 0, .lock false, .load false]

/-- Join the thread with the given ID. -/
def joinSample (id : BitVec 32) : List Event :=
  [.instr [] (Registers.write (fun _ => 0) 4 id), .trap, .join]

end Nachos

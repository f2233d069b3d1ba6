import Nachos.Threads.System

/-! Threads and semaphores by themselves (scheduler.cc, thread.cc, synch.cc, and
`SC_Join` of exception.cc): any number of threads, any number of semaphores,
and interrupt handlers that call `V`. An event is a stretch of code between two
points where something else may happen. `Thread::Sleep` is taken apart, because
while it finds nobody to run the handlers of `Interrupt::Idle` are called: it
blocks the thread, idles as long as the ready list is empty, and dispatches. -/

namespace Nachos.Synch
open Lib

abbrev SemPtr := Nat

structure Semaphore where
  value : Int
  queue : List ThreadPtr

/-- What a thread's kernel stack holds: nothing yet (`ThreadRoot`), the beginning of
`processCreator`, code outside the modelled operations, the loop of `P`, or the
`Sleep` of `SC_Join`. -/
inductive Point
  | root
  | enabled
  | code
  | inP (s : SemPtr)
  | inJoin
  deriving DecidableEq, Repr

inductive Life
  | unborn
  | alive
  | finished
  | destroyed
  deriving DecidableEq, Repr

/-- What the CPU does: run the current thread, look for another one in its
`Sleep`, or wait there for an interrupt. -/
inductive Cpu
  | running
  | sleeping
  | idling
  deriving DecidableEq, Repr

structure State where
  life : ThreadPtr → Life
  status : ThreadPtr → ThreadStatus
  point : ThreadPtr → Point
  parent : ThreadPtr → Option ThreadPtr
  isJoined : ThreadPtr → Bool
  currentThread : ThreadPtr
  cpu : Cpu
  threadToBeDestroyed : Option ThreadPtr
  readyList : List ThreadPtr
  semaphore : SemPtr → Semaphore
  -- not in the code: completed operations, and threads that `V` has woken and
  -- that have not been back in the loop of `P` since
  completedP : SemPtr → Nat
  completedV : SemPtr → Nat
  woken : SemPtr → Nat

inductive Event
  /-- `Thread::Fork` of a new thread. -/
  | fork (t : ThreadPtr)
  /-- `InterruptEnable`, at the end of which the forked procedure begins; that of a
  user process is `processCreator`. -/
  | start (user : Bool)
  /-- `processCreator` destroys the finished thread. -/
  | create
  | yield
  /-- `Semaphore::P`, to its first test of the value. -/
  | p (s : SemPtr)
  /-- What follows the `Sleep` of `P` or `SC_Join`. -/
  | resume
  | v (s : SemPtr)
  /-- An interrupt handler that calls `V`. -/
  | interrupt (s : SemPtr)
  /-- `SC_Join`, with the thread that `getID` found. -/
  | join (child : ThreadPtr)
  | finish
  /-- `Sleep` finds the ready list empty. -/
  | idle
  /-- `Sleep` finds a thread to run. -/
  | dispatch
  deriving DecidableEq, Repr

namespace State

/-! ## The scheduler -/

/-- `Scheduler::ReadyToRun`. -/
def readyToRun (k : State) (t : ThreadPtr) : State :=
  { k with status := Function.update k.status t .ready, readyList := k.readyList ++ [t] }

/-- `Scheduler::WakeUpFromJoin`. -/
def wakeUpFromJoin (k : State) (t : ThreadPtr) : State :=
  { k with
    isJoined := Function.update k.isJoined t false
    status := Function.update k.status t .ready
    readyList := t :: k.readyList }

/-- `delete threadToBeDestroyed`, if there is one. -/
def destroyFinished (k : State) : Except Fault State :=
  match k.threadToBeDestroyed with
  | none => .ok k
  | some x =>
    if x = k.currentThread then .error (.assertion .deleteCurrent)
    else .ok { k with life := Function.update k.life x .destroyed, threadToBeDestroyed := none }

/-- `Scheduler::Run`; a thread that has not run yet does not return from
`SWITCH` into it. -/
def run (k : State) (next : ThreadPtr) : Except Fault State :=
  let k := { k with
    currentThread := next, cpu := .running, status := Function.update k.status next .running }
  if k.point next = .root then .ok k else k.destroyFinished

/-! ## Threads -/

def setPoint (k : State) (pt : Point) : State :=
  { k with point := Function.update k.point k.currentThread pt }

/-- `Thread::Fork`, of a thread just made. -/
def fork (k : State) (t : ThreadPtr) : State :=
  { k with
    life := Function.update k.life t .alive
    point := Function.update k.point t .root
    parent := Function.update k.parent t none
    isJoined := Function.update k.isJoined t false }.readyToRun t

/-- `Thread::Yield`. -/
def yield (k : State) : Except Fault State :=
  match k.readyList with
  | [] => .ok k
  | next :: rest => ({ k with readyList := rest }.readyToRun k.currentThread).run next

/-- `Thread::Sleep` up to its loop. -/
def sleep (k : State) : State :=
  { k with status := Function.update k.status k.currentThread .blocked, cpu := .sleeping }

/-- The thread is finished; its parent is woken, if one is waiting. -/
def finish (k : State) : State :=
  let t := k.currentThread
  let k := { k with threadToBeDestroyed := some t, life := Function.update k.life t .finished }
  match k.parent t with
  | none => k.sleep
  | some p => (k.wakeUpFromJoin p).sleep

/-- `SC_Join`; a thread that has finished is not found by `getID`. -/
def join (k : State) (child : ThreadPtr) : State :=
  if k.life child = .alive ∧ k.isJoined k.currentThread = false then
    ({ k with
      parent := Function.update k.parent child (some k.currentThread)
      isJoined := Function.update k.isJoined k.currentThread true }.setPoint .inJoin).sleep
  else k

/-! ## Semaphores -/

def setSemaphore (k : State) (s : SemPtr) (sem : Semaphore) : State :=
  { k with semaphore := Function.update k.semaphore s sem }

def count (f : SemPtr → Nat) (s : SemPtr) : SemPtr → Nat := Function.update f s (f s + 1)

/-- Queue for the semaphore and go to sleep. -/
def waitOn (k : State) (s : SemPtr) : State :=
  ((k.setSemaphore s ⟨(k.semaphore s).value, (k.semaphore s).queue ++ [k.currentThread]⟩).setPoint
    (.inP s)).sleep

/-- The loop of `Semaphore::P`, from the test of the value on. -/
def test (k : State) (s : SemPtr) : Except Fault State :=
  if (k.semaphore s).value = 0 then .ok (k.waitOn s)
  else do
    let value ← cInt ((k.semaphore s).value - 1)
    .ok { (k.setSemaphore s ⟨value, (k.semaphore s).queue⟩).setPoint .code with
      completedP := count k.completedP s }

/-- `Semaphore::V`. -/
def v (k : State) (s : SemPtr) : Except Fault State := do
  let value ← cInt ((k.semaphore s).value + 1)
  let k := { k with completedV := count k.completedV s }
  match (k.semaphore s).queue with
  | [] => .ok (k.setSemaphore s ⟨value, []⟩)
  | t :: rest =>
    .ok { (k.setSemaphore s ⟨value, rest⟩).readyToRun t with woken := count k.woken s }

/-- `Lock::Acquire`, which is still a dummy. -/
def acquire (k : State) : State := k

/-- `Lock::Release`, a dummy as well. -/
def release (k : State) : State := k

/-! ## The machine -/

/-- The current thread runs, outside the modelled operations. -/
def InCode (k : State) : Prop := k.cpu = .running ∧ k.point k.currentThread = .code

instance (k : State) : Decidable k.InCode := inferInstanceAs (Decidable (_ ∧ _))

/-- The current thread runs with interrupts on. -/
def Interruptible (k : State) : Prop :=
  k.cpu = .running ∧ (k.point k.currentThread = .code ∨ k.point k.currentThread = .enabled)

instance (k : State) : Decidable k.Interruptible := inferInstanceAs (Decidable (_ ∧ _))

def resume (k : State) : Except Fault State :=
  match k.point k.currentThread with
  | .inP s => { k with woken := Function.update k.woken s (k.woken s - 1) }.test s
  | .inJoin => .ok (k.setPoint .code)
  | _ => .error .disabled

def start (k : State) (user : Bool) : Except Fault State :=
  if k.point k.currentThread = .root then
    .ok (k.setPoint (if user then .enabled else .code))
  else .error .disabled

def create (k : State) : Except Fault State :=
  if k.point k.currentThread = .enabled then (k.setPoint .code).destroyFinished
  else .error .disabled

def dispatch (k : State) : Except Fault State :=
  match k.readyList with
  | [] => .error .disabled
  | next :: rest => { k with readyList := rest }.run next

def step (k : State) : Event → Except Fault State
  | .fork t => if k.InCode ∧ k.life t = .unborn then .ok (k.fork t) else .error .disabled
  | .start user => if k.cpu = .running then k.start user else .error .disabled
  | .create => if k.cpu = .running then k.create else .error .disabled
  | .yield => if k.Interruptible then k.yield else .error .disabled
  | .p s => if k.InCode then k.test s else .error .disabled
  | .resume => if k.cpu = .running then k.resume else .error .disabled
  | .v s => if k.InCode then k.v s else .error .disabled
  | .interrupt s => if k.Interruptible ∨ k.cpu = .idling then k.v s else .error .disabled
  | .join child => if k.InCode then .ok (k.join child) else .error .disabled
  | .finish => if k.InCode then .ok k.finish else .error .disabled
  | .idle =>
    if k.cpu = .sleeping ∧ k.readyList = [] then .ok { k with cpu := .idling }
    else .error .disabled
  | .dispatch => if k.cpu ≠ .running then k.dispatch else .error .disabled

/-! ## What the operations can do -/

variable {k k' : State} {s : SemPtr}

theorem destroyFinished_cases (h : k.destroyFinished = .ok k') :
    (k.threadToBeDestroyed = none ∧ k' = k) ∨
    ∃ x, k.threadToBeDestroyed = some x ∧ x ≠ k.currentThread ∧ k' =
      { k with life := Function.update k.life x .destroyed, threadToBeDestroyed := none } := by
  unfold destroyFinished at h
  split at h
  · exact .inl ⟨‹_›, (Except.ok.inj h).symm⟩
  · obtain ⟨hne, h⟩ := ite_error_left_eq_ok.mp h
    exact .inr ⟨_, ‹_›, hne, (Except.ok.inj h).symm⟩

/-- `Scheduler::Run` up to `SWITCH`. -/
def switchTo (k : State) (next : ThreadPtr) : State :=
  { k with
    currentThread := next, cpu := .running, status := Function.update k.status next .running }

theorem run_cases {next : ThreadPtr} (h : k.run next = .ok k') :
    (k.point next = .root ∧ k' = k.switchTo next) ∨
    (k.point next ≠ .root ∧ (k.switchTo next).destroyFinished = .ok k') := by
  unfold run at h
  dsimp only at h
  split at h
  · exact .inl ⟨‹_›, (Except.ok.inj h).symm⟩
  · exact .inr ⟨‹_›, h⟩

theorem start_cases {user : Bool} (h : k.start user = .ok k') :
    k.point k.currentThread = .root ∧
      ((user = true ∧ k' = k.setPoint .enabled) ∨ (user = false ∧ k' = k.setPoint .code)) := by
  obtain ⟨hroot, h⟩ := ite_error_eq_ok.mp h
  refine ⟨hroot, ?_⟩
  cases user with
  | true => exact .inl ⟨rfl, (Except.ok.inj h).symm⟩
  | false => exact .inr ⟨rfl, (Except.ok.inj h).symm⟩

theorem create_cases (h : k.create = .ok k') :
    k.point k.currentThread = .enabled ∧ (k.setPoint .code).destroyFinished = .ok k' :=
  ite_error_eq_ok.mp h

theorem yield_cases (h : k.yield = .ok k') : k' = k ∨
    ∃ next rest, k.readyList = next :: rest ∧
      ({ k with readyList := rest }.readyToRun k.currentThread).run next = .ok k' := by
  unfold yield at h
  split at h
  · exact .inl (Except.ok.inj h).symm
  · exact .inr ⟨_, _, ‹_›, h⟩

theorem dispatch_cases (h : k.dispatch = .ok k') :
    ∃ next rest, k.readyList = next :: rest ∧ { k with readyList := rest }.run next = .ok k' := by
  unfold dispatch at h
  split at h
  · cases h
  · exact ⟨_, _, ‹_›, h⟩

/-- The loop of `P` is left at a value other than 0, or the thread waits. -/
theorem test_cases (h : k.test s = .ok k') :
    ((k.semaphore s).value = 0 ∧ k' = k.waitOn s) ∨
    ((k.semaphore s).value ≠ 0 ∧ k' =
      { (k.setSemaphore s ⟨(k.semaphore s).value - 1, (k.semaphore s).queue⟩).setPoint .code with
        completedP := count k.completedP s }) := by
  unfold test at h
  split at h
  · exact .inl ⟨‹_›, (Except.ok.inj h).symm⟩
  · obtain ⟨value, hv, h⟩ := bind_eq_ok.mp h
    obtain ⟨-, rfl⟩ := cInt_eq_ok.mp hv
    exact .inr ⟨‹_›, (Except.ok.inj h).symm⟩

/-- `V` raises the value, and wakes the first thread that waits. -/
theorem v_cases (h : k.v s = .ok k') :
    ((k.semaphore s).queue = [] ∧ k' =
      { k.setSemaphore s ⟨(k.semaphore s).value + 1, []⟩ with
        completedV := count k.completedV s }) ∨
    ∃ t rest, (k.semaphore s).queue = t :: rest ∧ k' =
      { (k.setSemaphore s ⟨(k.semaphore s).value + 1, rest⟩).readyToRun t with
        completedV := count k.completedV s, woken := count k.woken s } := by
  obtain ⟨value, hv, h⟩ := bind_eq_ok.mp h
  obtain ⟨-, rfl⟩ := cInt_eq_ok.mp hv
  dsimp only at h
  split at h
  · exact .inl ⟨‹_›, (Except.ok.inj h).symm⟩
  · exact .inr ⟨_, _, ‹_›, (Except.ok.inj h).symm⟩

theorem resume_cases (h : k.resume = .ok k') :
    (∃ s, k.point k.currentThread = .inP s ∧
      { k with woken := Function.update k.woken s (k.woken s - 1) }.test s = .ok k') ∨
    (k.point k.currentThread = .inJoin ∧ k' = k.setPoint .code) := by
  unfold resume at h
  split at h
  · exact .inl ⟨_, ‹_›, h⟩
  · exact .inr ⟨‹_›, (Except.ok.inj h).symm⟩
  · cases h

end State

/-- The main thread alone, and semaphores with the given values. -/
def init (value : SemPtr → Int) : State where
  life := Function.update (fun _ => .unborn) 0 .alive
  status := Function.update (fun _ => .justCreated) 0 .running
  point := fun _ => .code
  parent := fun _ => none
  isJoined := fun _ => false
  currentThread := 0
  cpu := .running
  threadToBeDestroyed := none
  readyList := []
  semaphore := fun s => ⟨value s, []⟩
  completedP := fun _ => 0
  completedV := fun _ => 0
  woken := fun _ => 0

end Nachos.Synch

import Nachos.Threads.System

/-! The dispatcher, the thread operations that give up the CPU, and semaphores
(scheduler.cc, thread.cc, synch.cc, interrupt.cc). `SWITCH` splits
`Scheduler::Run` in two: the half before it runs in the old thread, the half
behind it in the new one, and only if the new one has run before. -/

namespace Nachos
open Lib

namespace Kernel

/-! ## The ready list -/

/-- `Scheduler::ReadyToRun`. -/
def readyToRun (k : Kernel) (t : ThreadPtr) : Kernel :=
  { k.setStatus t .ready with readyList := k.readyList ++ [t] }

/-- `Scheduler::WakeUpFromJoin`. -/
def wakeUpFromJoin (k : Kernel) (t : ThreadPtr) : Kernel :=
  { (k.setThread t fun T => { T with isJoined := false }).setStatus t .ready with
    readyList := t :: k.readyList }

/-! ## Dispatching -/

/-- `delete threadToBeDestroyed`, if there is one; `~Thread` asserts that it is
not the running thread. -/
def destroyFinished (k : Kernel) : Except Fault Kernel :=
  match k.threadToBeDestroyed with
  | none => .ok k
  | some x =>
    if x = k.currentThread then .error (.assertion .deleteCurrent)
    else .ok { k with thread := Function.update k.thread x none, threadToBeDestroyed := none }

/-- `Thread::SaveUserState` for a thread with an address space. -/
def saveState (k : Kernel) : Kernel :=
  if (k.spaceOf k.currentThread).isSome then
    { k with userRegisters := Function.update k.userRegisters k.currentThread k.registers }
  else k

/-- `AddrSpace::RestoreState` of space `s`. -/
def restoreSpace (k : Kernel) (s : SpacePtr) : Except Fault Kernel :=
  match k.space s with
  | none => .error .undefined
  | some S => .ok { k with pageTable := some s, pageTableSize := S.numPages }

/-- `Thread::RestoreUserState` and `RestoreState` for a thread with an address
space. -/
def restoreState (k : Kernel) : Except Fault Kernel :=
  match k.spaceOf k.currentThread with
  | none => .ok k
  | some s => { k with registers := k.userRegisters k.currentThread }.restoreSpace s

/-- `Scheduler::Run`. -/
def run (k : Kernel) (next : ThreadPtr) : Except Fault Kernel :=
  let k := { k.saveState with currentThread := next }.setStatus next .running
  if k.cont next = .threadRoot then .ok k
  else do
    let k ← k.destroyFinished
    k.restoreState

/-- `Thread::Yield`. -/
def yield (k : Kernel) : Except Fault Kernel :=
  match k.readyList with
  | [] => .ok k
  | next :: rest => ({ k with readyList := rest }.readyToRun k.currentThread).run next

/-- `Thread::Sleep`. With nobody ready `Interrupt::Idle` finds at most the
timer pending, and halts the machine. -/
def sleep (k : Kernel) : Except Fault Kernel :=
  match k.readyList with
  | [] => .error .halted
  | next :: rest =>
    ({ k with readyList := rest }.setStatus k.currentThread .blocked).run next

/-- `Interrupt::OneTick`: if the timer fires, its interrupt flushes the pending
load and the running thread yields. -/
def oneTick (k : Kernel) (fire : Bool) : Except Fault Kernel :=
  if fire then { k with registers := k.registers.flush }.yield else .ok k

def dispatch (k : Kernel) : Next → Except Fault Kernel
  | .stay => .ok k
  | .tick fire => k.oneTick fire
  | .yield => k.yield
  | .sleep => k.sleep

/-! ## Finishing, and finding a thread by its ID -/

/-- The loop of `Thread::Finish` over the active list: `size` is read again in
every round, so taking the thread out also shortens the loop. -/
def removeActive (t : ThreadPtr) : Nat → Nat → List ThreadPtr → List ThreadPtr
  | 0, _, l => l
  | _ + 1, _, [] => []
  | fuel + 1, i, x :: l =>
    if i < (x :: l).length then
      removeActive t fuel (i + 1) (if x = t then l else l ++ [x])
    else x :: l

/-- `Thread::Finish` up to its `Sleep`. -/
def finish (k : Kernel) : Kernel :=
  let t := k.currentThread
  let k := { k with threadToBeDestroyed := some t }
  let k := match (k.thread t).bind Thread.parent with
    | none => k
    | some p => k.wakeUpFromJoin p
  { k with activeThreads := removeActive t k.activeThreads.length 0 k.activeThreads }

/-- `getID` of exception.cc: take each active thread off the front, look at its
ID and put it back at the end. -/
def getIDLoop (k : Kernel) (toGet : Int) : Nat → List ThreadPtr → Option ThreadPtr →
    Option ThreadPtr × List ThreadPtr
  | 0, l, found => (found, l)
  | _ + 1, [], found => (found, [])
  | n + 1, t :: l, found =>
    let isIt := (k.thread t).map (fun T => (T.ID : Int)) = some toGet
    getIDLoop k toGet n (l ++ [t]) (if isIt then some t else found)

def getID (k : Kernel) (toGet : Int) : Option ThreadPtr × List ThreadPtr :=
  k.getIDLoop toGet k.activeThreads.length k.activeThreads none

/-! ## The page locks -/

def setLock (k : Kernel) (f : Nat) (lock : Semaphore) : Kernel :=
  { k with pageLock := Function.update k.pageLock f lock }

/-- The two sides of the loop in `Semaphore::P` on `pageLock[f]`: take the
semaphore, or queue for it. -/
def lockTake (k : Kernel) (f : Nat) : Kernel :=
  k.setLock f ⟨(k.pageLock f).value - 1, (k.pageLock f).queue⟩
def lockWait (k : Kernel) (f : Nat) : Kernel :=
  k.setLock f ⟨(k.pageLock f).value, (k.pageLock f).queue ++ [k.currentThread]⟩

/-- `Semaphore::V` on `pageLock[f]` up to its `SetLevel`. -/
def lockV (k : Kernel) (f : Nat) : Kernel :=
  match (k.pageLock f).queue with
  | [] => k.setLock f ⟨(k.pageLock f).value + 1, []⟩
  | t :: rest => (k.readyToRun t).setLock f ⟨(k.pageLock f).value + 1, rest⟩

end Kernel
end Nachos

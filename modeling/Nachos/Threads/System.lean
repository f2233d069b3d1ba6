import Nachos.Userprog.Noff

/-! The kernel's global state (system.cc) and the objects it points to. Thread
and address-space objects live in two heaps indexed by pointer; a deleted or
never allocated object is `none`, and the allocators never hand out a pointer
twice. A thread's status, its saved user registers and what its kernel stack
holds are kept beside the object, one map each: they change with every context
switch, the rest of the object does not. -/

namespace Nachos

abbrev ThreadPtr := Nat
abbrev SpacePtr := Nat
abbrev Inode := Nat

/-- A C string without its terminator. -/
abbrev FileName := List UInt8

inductive ThreadStatus
  | justCreated
  | running
  | ready
  | blocked
  deriving DecidableEq, Repr

structure Thread where
  ID : Nat
  parent : Option ThreadPtr
  isJoined : Bool
  killNewChild : Bool
  space : Option SpacePtr
  deriving DecidableEq, Repr

/-- Where a thread stands, or goes on when it is dispatched: what its kernel
stack holds. A new thread is in `threadRoot`, then behind `InterruptEnable`;
`user` is the loop of `Machine::Run`, `call` the body of a system call. The
last two are the places inside `loadPage` where a thread can lose the CPU, in
`pageLock[f]->P()` before and after the semaphore is taken; `inCall` tells a
fault of the handler's own `ReadMem` or `WriteMem` from one of the user
program. -/
inductive Cont
  | threadRoot
  | enabled
  | user
  | call
  | locking (virtualPage : Int) (physPage : Nat) (inCall : Bool)
  | locked (virtualPage : Int) (physPage : Nat) (inCall : Bool)
  deriving DecidableEq, Repr

/-- Where a `OneTick` can find the running thread: not before `InterruptEnable`,
and not inside `P`, where interrupts are off. -/
def Cont.ticks : Cont → Bool
  | .enabled | .user | .call | .locked _ _ _ => true
  | .threadRoot | .locking _ _ _ => false

structure Semaphore where
  value : Nat
  queue : List ThreadPtr

structure TranslationEntry where
  virtualPage : Int
  physicalPage : Int
  valid : Bool
  readOnly : Bool
  use : Bool
  dirty : Bool
  deriving DecidableEq, Repr

structure AddrSpace where
  file : List UInt8
  swapFile : Inode
  noffH : NoffHeader
  pageTable : Nat → TranslationEntry
  numPages : Nat
  swapped : Nat → Bool
  space : Bool
  swapfilename : FileName

structure Kernel where
  thread : ThreadPtr → Option Thread
  nextThread : ThreadPtr
  status : ThreadPtr → ThreadStatus
  cont : ThreadPtr → Cont
  userRegisters : ThreadPtr → Registers
  currentThread : ThreadPtr
  threadToBeDestroyed : Option ThreadPtr
  readyList : List ThreadPtr
  activeThreads : List ThreadPtr
  threadID : Nat
  pageLock : Nat → Semaphore
  space : SpacePtr → Option AddrSpace
  nextSpace : SpacePtr
  memMap : Nat → Bool
  ipt : Nat → Option ThreadPtr
  pageList : List Nat
  swapChoice : Int
  mainMemory : Nat → UInt8
  registers : Registers
  pageTable : Option SpacePtr
  pageTableSize : Nat
  -- the host: executables are only read, swap files are created and removed
  exe : FileName → Option NoffFile
  hostDir : FileName → Option Inode
  hostData : Inode → List UInt8
  nextInode : Inode

/-- What the code of a thread does with the CPU at the end of a stretch of
kernel code: keep it, pass an `OneTick` in which the timer may fire, give it up
or go to sleep. -/
inductive Next
  | stay
  | tick (fire : Bool)
  | yield
  | sleep
  deriving DecidableEq, Repr

namespace Kernel

def setStatus (k : Kernel) (t : ThreadPtr) (st : ThreadStatus) : Kernel :=
  { k with status := Function.update k.status t st }

/-- Write through a thread pointer. -/
def setThread (k : Kernel) (t : ThreadPtr) (f : Thread → Thread) : Kernel :=
  { k with thread := Function.update k.thread t ((k.thread t).map f) }

/-- The space a thread pointer leads to. -/
def spaceOf (k : Kernel) (t : ThreadPtr) : Option SpacePtr := (k.thread t).bind Thread.space

/-- Where the running thread stands. -/
def here (k : Kernel) : Cont := k.cont k.currentThread

def goTo (k : Kernel) (c : Cont) : Kernel :=
  { k with cont := Function.update k.cont k.currentThread c }

/-- Write through a space pointer. -/
def setSpace (k : Kernel) (s : SpacePtr) (S : AddrSpace) : Kernel :=
  { k with space := Function.update k.space s (some S) }

end Kernel
end Nachos

import Nachos.Threads.Scheduler
import Nachos.Machine.Translate

/-! Address spaces (addrspace.cc): construction, destruction, and the pieces
of `loadPage` between the places where it can lose the CPU. Frames, page tables,
the inverted table `ipt` and the FIFO list are separate structures that only
these functions keep in step. -/

namespace Nachos
open Lib

/-- `sprintf(swapfilename, "%d.swap", id)`. -/
def swapName (id : Nat) : FileName :=
  (Nat.toDigits 10 id).map (fun c => c.toNat.toUInt8) ++ [46, 115, 119, 97, 112]

/-- The 256 bytes of a frame. -/
def frameBytes (mem : Nat → UInt8) (frame : Nat) : List UInt8 :=
  (List.range pageSize).map fun j => mem (pageSize * frame + j)

namespace AddrSpace

/-- A space as the constructor leaves it: no page has a frame. `junk` is what
the allocator left in `swapped`, which nothing initialises. -/
def new (executable : NoffFile) (numPages : Nat) (junk : Nat → Bool) (swapFile : Inode)
    (swapfilename : FileName) : AddrSpace where
  file := executable.bytes
  swapFile := swapFile
  noffH := NoffHeader.decode executable.bytes
  pageTable := fun i => ⟨i, -1, false, false, false, false⟩
  numPages := numPages
  swapped := junk
  space := true
  swapfilename := swapfilename

/-- The page a frame is mapped to: the search loop of `Swapout`. -/
def pageOf (S : AddrSpace) (frame : Nat) : Option Nat :=
  (List.range S.numPages).find? fun i => (S.pageTable i).physicalPage = frame

def setEntry (S : AddrSpace) (page : Nat) (f : TranslationEntry → TranslationEntry) : AddrSpace :=
  { S with pageTable := Function.update S.pageTable page (f (S.pageTable page)) }

def setSwapped (S : AddrSpace) (page : Nat) (b : Bool) : AddrSpace :=
  { S with swapped := Function.update S.swapped page b }

/-- A page that has just been brought in. -/
def setLoaded (S : AddrSpace) (page : Nat) : AddrSpace :=
  S.setEntry page fun e => { e with valid := true, dirty := false }

/-- A page that has just been evicted. -/
def setEvicted (S : AddrSpace) (page : Nat) : AddrSpace :=
  (S.setEntry page fun e =>
    { e with valid := false, dirty := false, physicalPage := -1 }).setSwapped page false

/-- The first-load branch of `loadPage`: the frame is cleared and both segments
are copied over it, the code first. -/
def buildPage (S : AddrSpace) (page frame : Nat) (mem : Nat → UInt8) :
    Except Fault (Nat → UInt8) := do
  let mem ← copySegment S.noffH.code S.file page frame
    (overlay mem (pageSize * frame) (List.replicate pageSize 0))
  copySegment S.noffH.initData S.file page frame mem

/-- `memMap->Clear(frame)`, which asserts that the frame exists; -1 is no
frame. -/
def clearFrame (memMap : Nat → Bool) (frame : Int) : Except Fault (Nat → Bool) :=
  if frame = -1 then .ok memMap
  else if 0 ≤ frame ∧ frame < numPhysPages then .ok (Function.update memMap frame.toNat false)
  else .error (.assertion .bitmap)

/-- The loop of the destructor over the page table. -/
def clearFrames (S : AddrSpace) (memMap : Nat → Bool) : Except Fault (Nat → Bool) :=
  if S.space then
    (List.range S.numPages).foldlM (fun m i => clearFrame m (S.pageTable i).physicalPage) memMap
  else .ok memMap

end AddrSpace

namespace Kernel

/-! ## Construction and destruction -/

/-- `FileSystem::Create` of the stub: a file that exists is truncated. -/
def createFile (k : Kernel) (name : FileName) : Kernel :=
  match k.hostDir name with
  | some i => { k with hostData := Function.update k.hostData i [] }
  | none =>
    { k with hostDir := Function.update k.hostDir name (some k.nextInode)
             hostData := Function.update k.hostData k.nextInode []
             nextInode := k.nextInode + 1 }

/-- `FileSystem::Remove` of the stub: the name goes, open files stay. -/
def removeFile (k : Kernel) (name : FileName) : Kernel :=
  { k with hostDir := Function.update k.hostDir name none }

/-- The size of a new address space in pages. The three sizes and the stack
are added as `int`. -/
def pagesNeeded (h : NoffHeader) : Except Fault Nat := do
  let a ← cInt (h.code.size.toInt + h.initData.size.toInt)
  let b ← cInt (a + h.uninitData.size.toInt)
  let size ← cInt (b + userStackSize)
  .ok ((toUnsigned size + (pageSize - 1)) / pageSize).toNat

/-- `AddrSpace::AddrSpace`. The name of the swap file comes from the thread
that runs the constructor. -/
def newAddrSpace (k : Kernel) (executable : NoffFile) (junk : Nat → Bool) :
    Except Fault (SpacePtr × Kernel) :=
  match k.thread k.currentThread with
  | none => .error .undefined
  | some T => do
    let numPages ← pagesNeeded (NoffHeader.decode executable.bytes)
    let name := swapName T.ID
    let k := k.createFile name
    match k.hostDir name with
    | none => .error .undefined
    | some swapFile =>
      .ok (k.nextSpace, { k.setSpace k.nextSpace (.new executable numPages junk swapFile name) with
        nextSpace := k.nextSpace + 1 })

/-- `AddrSpace::~AddrSpace`. -/
def deleteSpace (k : Kernel) (s : SpacePtr) : Except Fault Kernel :=
  match k.space s with
  | none => .error .undefined
  | some S => do
    let memMap ← S.clearFrames k.memMap
    .ok ({ k with memMap := memMap, space := Function.update k.space s none }.removeFile
      S.swapfilename)

/-! ## Finding a frame -/

/-- `memMap->Find()`. -/
def find (k : Kernel) : Option Nat := (List.range numPhysPages).find? fun i => !k.memMap i

def mark (k : Kernel) (frame : Nat) : Kernel :=
  { k with memMap := Function.update k.memMap frame true }

/-- `swapFile->WriteAt` of a whole frame. -/
def writeSwap (k : Kernel) (S : AddrSpace) (page frame : Nat) : Kernel :=
  let bytes := frameBytes k.mainMemory frame
  let data := writeBytes (k.hostData S.swapFile) (page * pageSize) bytes
  { k with hostData := Function.update k.hostData S.swapFile data }

/-- `AddrSpace::Swapout`. -/
def swapout (k : Kernel) (s : SpacePtr) (frame : Nat) : Except Fault Kernel :=
  match k.space s with
  | none => .error .undefined
  | some S =>
    match S.pageOf frame with
    | none => .error (.assertion .swapout)
    | some page =>
      let k := if (S.pageTable page).dirty then k.writeSwap S page frame else k
      .ok (k.setSpace s (S.setEvicted page))

/-- The replacement policy: the frame to evict. `List::Remove` on an empty
list gives `NULL`, that is 0; `random` is what `Random()` returned. -/
def victim (k : Kernel) (random : Nat) : Except Fault (Nat × Kernel) :=
  if k.swapChoice = 1 then .ok (k.pageList.headD 0, { k with pageList := k.pageList.tail })
  else if k.swapChoice = 2 then .ok (random % 32, k)
  else .error (.assertion .noScheme)

/-- `ipt[frame]->space`, all of whose dereferences must be good. -/
def owner (k : Kernel) (frame : Nat) : Except Fault SpacePtr :=
  if frame < numPhysPages then
    match (k.ipt frame).bind k.spaceOf with
    | none => .error .undefined
    | some s => .ok s
  else .error .undefined

/-- `loadPage` up to the choice of the frame. -/
def selectPage (k : Kernel) (random : Nat) : Except Fault (Nat × Kernel) :=
  match k.find with
  | some frame => .ok (frame, k.mark frame)
  | none => do
    let choice ← k.victim random
    let s ← choice.2.owner choice.1
    let k ← choice.2.swapout s choice.1
    .ok (choice.1, k)

/-! ## Filling the frame -/

/-- `AddrSpace::Swapin`. -/
def swapin (k : Kernel) (s : SpacePtr) (S : AddrSpace) (page frame : Nat) : Kernel :=
  let bytes := readBytes (k.hostData S.swapFile) (page * pageSize) pageSize
  let S := if bytes.length = pageSize then S.setLoaded page else S
  { k.setSpace s (S.setSwapped page true) with
    mainMemory := overlay k.mainMemory (pageSize * frame) bytes }

/-- The first-load branch: build the page, write it to swap, make it valid. -/
def loadImage (k : Kernel) (s : SpacePtr) (S : AddrSpace) (page frame : Nat) :
    Except Fault Kernel := do
  let mem ← S.buildPage page frame k.mainMemory
  .ok (({ k with mainMemory := mem }.writeSwap S page frame).setSpace s (S.setLoaded page))

/-- `loadPage` behind the page lock: record the owner and the mapping, then
bring the page in. -/
def fillPage (k : Kernel) (s : SpacePtr) (virtualPage : Int) (frame : Nat) :
    Except Fault Kernel :=
  match k.space s with
  | none => .error .undefined
  | some S =>
    if 0 ≤ virtualPage ∧ virtualPage < S.numPages then
      let page := virtualPage.toNat
      let k := { k with ipt := Function.update k.ipt frame (some k.currentThread) }
      let S := S.setEntry page fun e => { e with physicalPage := frame }
      if S.swapped page then .ok (k.swapin s S page frame)
      else k.loadImage s S page frame
    else .error .undefined

def appendPage (k : Kernel) (frame : Nat) : Kernel :=
  { k with pageList := k.pageList ++ [frame] }

/-- `badVAddr / PageSize`, a division of `int`. -/
def pageOfAddr (badVAddr : BitVec 32) : Int := badVAddr.toInt.tdiv pageSize

/-- `AddrSpace::loadPage` as one step, run without losing the CPU. -/
def loadPage (k : Kernel) (s : SpacePtr) (badVAddr : BitVec 32) (random : Nat) :
    Except Fault Kernel := do
  let choice ← k.selectPage random
  if k.swapChoice = 1 then
    if (choice.2.pageLock choice.1).value = 0 then .error .blocked
    else do
      let k ← ((choice.2.appendPage choice.1).lockTake choice.1).fillPage s
        (pageOfAddr badVAddr) choice.1
      .ok (k.lockV choice.1)
  else choice.2.fillPage s (pageOfAddr badVAddr) choice.1

end Kernel
end Nachos

import Nachos.Threads.System

/-! Address translation and the memory accesses built on it (translate.cc). The
machine is built without a TLB: translation goes through the page table that
`RestoreState` installed, found here by the space it belongs to. -/

namespace Nachos
open Lib

inductive ExceptionType
  | syscall
  | pageFault
  | readOnly
  | busError
  | addressError
  | overflow
  | illegalInstr
  deriving DecidableEq, Repr

/-- What `Translate` returns: an exception, or the physical address and the
entry with its bits updated. -/
inductive Translation
  | exception (which : ExceptionType)
  | mapped (physAddr : Nat) (entry : TranslationEntry)

/-- The access sizes `ReadMem` and `WriteMem` know. -/
inductive Width
  | byte
  | half
  | word
  deriving DecidableEq, Repr

def Width.size : Width → Nat
  | .byte => 1
  | .half => 2
  | .word => 4

/-- A memory access of the user program or of the kernel on its behalf. -/
inductive Access
  | read (addr : BitVec 32) (width : Width)
  | write (addr : BitVec 32) (width : Width) (value : BitVec 32)
  deriving DecidableEq, Repr

def vpnOf (addr : BitVec 32) : Nat := addr.toNat / pageSize

namespace TranslationEntry

/-- `Translate` behind the page table lookup. -/
def access (entry : TranslationEntry) (offset : Nat) (writing : Bool) : Translation :=
  if entry.readOnly && writing then .exception .readOnly
  else if toUnsigned entry.physicalPage ≥ numPhysPages then .exception .busError
  else .mapped ((toUnsigned entry.physicalPage).toNat * pageSize + offset)
    { entry with use := true, dirty := entry.dirty || writing }

end TranslationEntry

/-- `Translate` for a page table of `tableSize` entries. Its closing assertion
on the physical address cannot fail: an access that is not refused is aligned,
and so does not leave its page. -/
def translate (table : Nat → TranslationEntry) (tableSize : Nat) (virtAddr : BitVec 32)
    (width : Width) (writing : Bool) : Translation :=
  if virtAddr.toNat % width.size ≠ 0 then .exception .addressError
  else if vpnOf virtAddr ≥ tableSize then .exception .addressError
  else if !(table (vpnOf virtAddr)).valid then .exception .pageFault
  else (table (vpnOf virtAddr)).access (virtAddr.toNat % pageSize) writing

/-- A translation only sets bits of the entry. -/
theorem translate_mapped {table : Nat → TranslationEntry} {tableSize physAddr : Nat}
    {virtAddr : BitVec 32} {width : Width} {writing : Bool} {entry : TranslationEntry}
    (h : translate table tableSize virtAddr width writing = .mapped physAddr entry) :
    entry.physicalPage = (table (vpnOf virtAddr)).physicalPage ∧
      entry.valid = (table (vpnOf virtAddr)).valid ∧
      entry.readOnly = (table (vpnOf virtAddr)).readOnly := by
  unfold translate TranslationEntry.access at h
  repeat' split at h
  all_goals cases h
  exact ⟨rfl, rfl, rfl⟩

/-- What a translation comes to, but for the bits of the entry. -/
def Translation.outcome : Translation → ExceptionType ⊕ Nat
  | .exception which => .inl which
  | .mapped physAddr _ => .inr physAddr

theorem translate_outcome {table table' : Nat → TranslationEntry}
    (h : ∀ v, (table' v).physicalPage = (table v).physicalPage ∧
      (table' v).valid = (table v).valid ∧ (table' v).readOnly = (table v).readOnly)
    (tableSize : Nat) (virtAddr : BitVec 32) (width : Width) (writing : Bool) :
    (translate table' tableSize virtAddr width writing).outcome =
      (translate table tableSize virtAddr width writing).outcome := by
  obtain ⟨hphys, hvalid, hro⟩ := h (vpnOf virtAddr)
  unfold translate TranslationEntry.access
  rw [hphys, hvalid, hro]
  repeat' split
  all_goals rfl

namespace Kernel

/-- The page table the machine is set to, with the space it belongs to. -/
def machineTable (k : Kernel) : Except Fault (SpacePtr × AddrSpace) :=
  match k.pageTable with
  | none => .error (.assertion .translateTable)
  | some s =>
    match k.space s with
    | none => .error .undefined
    | some S => .ok (s, S)

theorem machineTable_eq_ok {k : Kernel} {s : SpacePtr} {S : AddrSpace} :
    k.machineTable = .ok (s, S) ↔ k.pageTable = some s ∧ k.space s = some S := by
  unfold machineTable
  constructor
  · intro h
    split at h
    · cases h
    · rename_i s' hs
      split at h
      · cases h
      · rename_i S' hS
        cases h
        exact ⟨hs, hS⟩
  · intro ⟨hs, hS⟩
    simp only [hs, hS]

def translate (k : Kernel) (virtAddr : BitVec 32) (width : Width) (writing : Bool) :
    Except Fault Translation :=
  match k.machineTable with
  | .error e => .error e
  | .ok (_, S) => .ok (Nachos.translate S.pageTable k.pageTableSize virtAddr width writing)

/-- The machine's entry for `virtAddr`, written back. -/
def setEntry (k : Kernel) (virtAddr : BitVec 32) (entry : TranslationEntry) : Kernel :=
  match k.machineTable with
  | .error _ => k
  | .ok (s, S) =>
    k.setSpace s { S with pageTable := Function.update S.pageTable (vpnOf virtAddr) entry }

/-- An access that raises no exception: `ReadMem` and `WriteMem` with their
effect on memory and on the entry's bits. -/
def access (k : Kernel) : Access → Except Fault Kernel
  | .read addr width =>
    match k.translate addr width false with
    | .ok (.mapped _ entry) => .ok (k.setEntry addr entry)
    | .ok (.exception _) => .error .disabled
    | .error e => .error e
  | .write addr width value =>
    match k.translate addr width true with
    | .ok (.mapped physAddr entry) =>
      .ok { k.setEntry addr entry with
        mainMemory := overlay k.mainMemory physAddr
          ((List.range width.size).map fun i => (value >>> (8 * i)).toNat.toUInt8) }
    | .ok (.exception _) => .error .disabled
    | .error e => .error e

end Kernel
end Nachos

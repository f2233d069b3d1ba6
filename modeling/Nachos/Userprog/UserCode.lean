import Nachos.Machine.Footprint
import Nachos.Userprog.Exception

/-! User code under the kernel. The kernel's state machine leaves open what a
user instruction does: an `instr` event carries any memory accesses and any
registers. Here is why that is enough: whatever `OneInstruction` completes is
an `instr` event with the accesses it made, and where it raises a page fault
the kernel's `fault` event is possible. -/

namespace Nachos
open Lib

namespace Kernel

variable {k : Kernel} {s : SpacePtr} {S : AddrSpace}

/-- The memory the machine accesses through the page table of `S`. -/
def memory (k : Kernel) (S : AddrSpace) : Memory := ⟨k.mainMemory, S.pageTable, k.pageTableSize⟩

/-- The machine the user program runs on. -/
def machine (k : Kernel) (S : AddrSpace) : Machine := ⟨k.registers, k.memory S⟩

/-- `k'` shows the program the memory `mem` and is else as `k`, as far as the
machine goes. -/
structure Shows (k : Kernel) (s : SpacePtr) (mem : Memory) (k' : Kernel) : Prop where
  memory : ∃ S, k'.machineTable = .ok (s, S) ∧ k'.memory S = mem
  registers : k'.registers = k.registers
  here : k'.here = k.here

theorem Shows.trans {k' k'' : Kernel} {mem mem' : Memory} (h : k.Shows s mem k')
    (h' : k'.Shows s mem' k'') : k.Shows s mem' k'' :=
  ⟨h'.memory, h'.registers.trans h.registers, h'.here.trans h.here⟩

theorem setEntry_eq (ht : k.machineTable = .ok (s, S)) (addr : BitVec 32)
    (entry : TranslationEntry) : k.setEntry addr entry =
      k.setSpace s { S with pageTable := Function.update S.pageTable (vpnOf addr) entry } := by
  simp only [setEntry, ht]

theorem setSpace_shows (ht : k.machineTable = .ok (s, S)) (S' : AddrSpace)
    (mainMemory : Nat → UInt8) :
    k.Shows s ⟨mainMemory, S'.pageTable, k.pageTableSize⟩
      { k.setSpace s S' with mainMemory := mainMemory } :=
  ⟨⟨S', machineTable_eq_ok.mpr ⟨(machineTable_eq_ok.mp ht).1, Function.update_self _ _ _⟩, rfl⟩,
    rfl, rfl⟩

/-- `ReadMem` and `WriteMem` are the accesses of the kernel's events. -/
theorem access_read {addr : BitVec 32} {width : Width} {value : BitVec 32} {mem : Memory}
    (ht : k.machineTable = .ok (s, S)) (h : (k.memory S).readMem addr width = .ok (value, mem)) :
    ∃ k', k.access (.read addr width) = .ok k' ∧ k.Shows s mem k' := by
  unfold Memory.readMem at h
  split at h
  · cases h
  · rename_i physAddr entry htr
    have htr' : k.translate addr width false = .ok (.mapped physAddr entry) := by
      simp only [translate, ht]
      exact congrArg _ htr
    cases h
    refine ⟨_, ?_, setSpace_shows ht { S with
      pageTable := Function.update S.pageTable (vpnOf addr) entry } k.mainMemory⟩
    simp only [access, htr', setEntry_eq ht]
    rfl

theorem access_write {addr : BitVec 32} {width : Width} {value : BitVec 32} {mem : Memory}
    (ht : k.machineTable = .ok (s, S)) (h : (k.memory S).writeMem addr width value = .ok mem) :
    ∃ k', k.access (.write addr width value) = .ok k' ∧ k.Shows s mem k' := by
  unfold Memory.writeMem at h
  split at h
  · cases h
  · rename_i physAddr entry htr
    have htr' : k.translate addr width true = .ok (.mapped physAddr entry) := by
      simp only [translate, ht]
      exact congrArg _ htr
    cases h
    refine ⟨_, ?_, setSpace_shows ht { S with
      pageTable := Function.update S.pageTable (vpnOf addr) entry }
      (overlay k.mainMemory physAddr (valueBytes width value))⟩
    simp only [access, htr', setEntry_eq ht]
    rfl

theorem faults_of_translate {addr : BitVec 32} {width : Width} {writing : Bool}
    (ht : k.machineTable = .ok (s, S))
    (h : (k.memory S).translate addr width writing = .exception .pageFault) : k.Faults addr := by
  unfold Memory.translate Nachos.translate TranslationEntry.access at h
  repeat' split at h
  all_goals cases h
  rename_i hsize hvalid
  exact ⟨s, S, ht, Nat.lt_of_not_le hsize, by simpa [memory] using hvalid⟩

theorem faults_of_readMem {addr : BitVec 32} {width : Width} (ht : k.machineTable = .ok (s, S))
    (h : (k.memory S).readMem addr width = .error .pageFault) : k.Faults addr := by
  unfold Memory.readMem at h
  split at h
  · rename_i htr
    cases h
    exact faults_of_translate ht htr
  · cases h

theorem faults_of_writeMem {addr : BitVec 32} {width : Width} {value : BitVec 32}
    (ht : k.machineTable = .ok (s, S))
    (h : (k.memory S).writeMem addr width value = .error .pageFault) : k.Faults addr := by
  unfold Memory.writeMem at h
  split at h
  · rename_i htr
    cases h
    exact faults_of_translate ht htr
  · cases h

/-- There are accesses that lead to the outcome; they stop in front of the one that
raised an exception. -/
def AccessesTo (k : Kernel) (s : SpacePtr) (o : Outcome) : Prop :=
  ∃ (accesses : List Access) (k' : Kernel) (m : Machine), accesses.foldlM access k = .ok k' ∧
    k.Shows s m.memory k' ∧ (o = .completed m ∨ ∃ which, o = .raised which m ∧
      (which = .pageFault → ∃ addr, k'.Faults addr))

theorem AccessesTo.raised {r : Registers} {which : ExceptionType}
    (ht : k.machineTable = .ok (s, S)) (hf : which = .pageFault → ∃ addr, k.Faults addr) :
    k.AccessesTo s (.raised which ⟨r, k.memory S⟩) :=
  ⟨[], k, _, rfl, ⟨⟨S, ht, rfl⟩, rfl, rfl⟩, .inr ⟨which, rfl, hf⟩⟩

theorem AccessesTo.cons {k₁ : Kernel} {e : Access} {mem : Memory} {o : Outcome}
    (h₁ : k.access e = .ok k₁) (hs₁ : k.Shows s mem k₁) (h : k₁.AccessesTo s o) :
    k.AccessesTo s o := by
  obtain ⟨accesses, k', m, hrun, hs, ho⟩ := h
  refine ⟨e :: accesses, k', m, ?_, hs₁.trans hs, ho⟩
  rw [List.foldlM_cons, h₁]
  exact hrun

/-- The accesses of an action that returns. -/
theorem exec_accesses {a : Action} {r : Registers} {o : Outcome}
    (ht : k.machineTable = .ok (s, S)) (hn : a.NoFault)
    (h : Machine.exec ⟨r, k.memory S⟩ a = .ok o) : k.AccessesTo s o := by
  induction a generalizing k S r with
  | done pcAfter nextReg nextValue =>
    simp only [Machine.exec] at h
    split at h
    · cases h; exact ⟨[], k, _, rfl, ⟨⟨S, ht, rfl⟩, rfl, rfl⟩, .inl rfl⟩
    · cases h
  | assign reg value rest ih => exact ih ht hn h
  | readMem addr width rest ih =>
    simp only [Machine.exec] at h
    split at h
    · rename_i which hr
      obtain ⟨r', rfl⟩ := Machine.raiseException_eq_ok h
      exact .raised ht fun hp => ⟨addr, faults_of_readMem ht (hp ▸ hr)⟩
    · rename_i value mem hr
      obtain ⟨k₁, h₁, hs₁⟩ := access_read ht hr
      obtain ⟨S₁, ht₁, rfl⟩ := hs₁.memory
      exact .cons h₁ hs₁ (ih _ ht₁ (hn _) h)
  | writeMem addr width value rest ih =>
    simp only [Machine.exec] at h
    split at h
    · rename_i which hr
      obtain ⟨r', rfl⟩ := Machine.raiseException_eq_ok h
      exact .raised ht fun hp => ⟨addr, faults_of_writeMem ht (hp ▸ hr)⟩
    · rename_i mem hr
      obtain ⟨k₁, h₁, hs₁⟩ := access_write ht hr
      obtain ⟨S₁, ht₁, rfl⟩ := hs₁.memory
      exact .cons h₁ hs₁ (ih ht₁ hn h)
  | raise which badVAddr =>
    obtain ⟨r', rfl⟩ := Machine.raiseException_eq_ok h
    exact .raised ht fun hp => absurd hp hn
  | fail fault => cases h

theorem fetch_noFault (r : Registers) : Action.NoFault (.readMem (r pcReg) .word fun raw =>
    (Instruction.decode raw).execute r) :=
  fun raw => (Instruction.decode raw).execute_noFault r

/-- A user instruction that `OneInstruction` completes is an event of the
kernel, which ends on the machine the instruction leaves. -/
theorem act_of_completed {m : Machine} (hu : k.here = .user) (ht : k.machineTable = .ok (s, S))
    (h : (k.machine S).oneInstruction = .ok (.completed m)) :
    ∃ accesses k' S', k.act (.instr accesses m.registers) = .ok (k', .stay) ∧
      k'.machineTable = .ok (s, S') ∧ k'.machine S' = m := by
  obtain ⟨accesses, k₁, m', hrun, hs, ho⟩ := exec_accesses ht (fetch_noFault _) h
  rcases ho with ho | ⟨which, ho, -⟩
  · cases ho
    obtain ⟨S', ht', hmem⟩ := hs.memory
    refine ⟨accesses, { k₁ with registers := m.registers }, S', ?_, ht', ?_⟩
    · simp only [act, if_pos hu, hrun, ok_bind]
    · change (⟨m.registers, k₁.memory S'⟩ : Machine) = m
      rw [hmem]
  · cases ho

/-- A user instruction that raises a page fault is the accesses in front of it,
an event that leaves the registers alone, and the kernel's `fault`. -/
theorem act_of_pageFault {m : Machine} (hu : k.here = .user) (ht : k.machineTable = .ok (s, S))
    (h : (k.machine S).oneInstruction = .ok (.raised .pageFault m)) :
    ∃ accesses k' addr, k.act (.instr accesses k.registers) = .ok (k', .stay) ∧
      k'.here = .user ∧ k'.Faults addr := by
  obtain ⟨accesses, k₁, m', hrun, hs, ho⟩ := exec_accesses ht (fetch_noFault _) h
  rcases ho with ho | ⟨which, ho, hf⟩
  · cases ho
  · cases ho
    obtain ⟨addr, hf⟩ := hf rfl
    have hk : { k₁ with registers := k.registers } = k₁ := by rw [← hs.registers]
    refine ⟨accesses, k₁, addr, ?_, hs.here.trans hu, hf⟩
    simp only [act, if_pos hu, hrun, ok_bind, hk]

end Kernel
end Nachos

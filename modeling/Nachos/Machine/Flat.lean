import Nachos.Machine.Restart

/-! The machine a user program believes to run on: its registers and one array of
bytes, all of it there. The kernel shows in a few moves only: a page fault or an
interrupt completes the pending load, and between a system call and its return the
kernel may store to memory and leave a result. `exec_flat` says that the real machine
does what this one does, unless it meets a page that is not in memory. -/

namespace Nachos
open Lib

/-! ## Accesses -/

/-- An image of memory behind an access. -/
def Access.store (image : Nat → UInt8) : Access → Nat → UInt8
  | .read _ _ => image
  | .write addr width value => overlay image addr.toNat (valueBytes width value)

/-- The accesses an action makes, in order, up to the one that raises an exception. -/
def Memory.accesses (mem : Memory) : Action → List Access
  | .assign _ _ rest => mem.accesses rest
  | .readMem addr width rest =>
    match mem.readMem addr width with
    | .error _ => []
    | .ok (value, mem) => .read addr width :: mem.accesses (rest value)
  | .writeMem addr width value rest =>
    match mem.writeMem addr width value with
    | .error _ => []
    | .ok mem => .write addr width value :: mem.accesses rest
  | .done .. | .raise .. | .fail _ => []

/-- The accesses of the next instruction. -/
def Machine.accesses (m : Machine) : List Access :=
  m.memory.accesses (.readMem (m.registers pcReg) .word fun raw =>
    (Instruction.decode raw).execute m.registers)

/-! ## The flat machine -/

structure Flat where
  registers : Registers
  image : Nat → UInt8
  numPages : Nat
  /-- Whether the program waits for a system call to return. -/
  calling : Bool

/-- What happens to a program. -/
inductive Move
  /-- The next instruction is carried out. -/
  | execute
  /-- A page fault, from which the instruction will be started over. -/
  | fault (badVAddr : BitVec 32)
  | interrupt
  | trap
  /-- The kernel stores into the program's memory. -/
  | store (addr : BitVec 32) (width : Width) (value : BitVec 32)
  /-- The kernel leaves a result in register 2. -/
  | result (value : BitVec 32)
  | resume
  | exit
  /-- The kernel ends the program because of an exception. -/
  | killed (badVAddr : BitVec 32)
  deriving DecidableEq, Repr

namespace Flat

def Refuses (m : Flat) (addr : BitVec 32) (width : Width) : Prop :=
  addr.toNat % width.size ≠ 0 ∨ m.numPages ≤ vpnOf addr

instance (m : Flat) (addr : BitVec 32) (width : Width) : Decidable (m.Refuses addr width) :=
  inferInstanceAs (Decidable (_ ∨ _))

inductive Result
  | completed (m : Flat)
  | raised (which : ExceptionType)

def raised (m : Flat) (which : ExceptionType) : Except Fault Result :=
  if m.registers.LoadOk then .ok (.raised which) else .error .undefined

def exec (m : Flat) : Action → Except Fault Result
  | .done pcAfter nextReg nextValue =>
    if m.registers.LoadOk then
      .ok (.completed { m with registers := m.registers.finish pcAfter nextReg nextValue })
    else .error .undefined
  | .assign reg value rest => { m with registers := m.registers.write reg value }.exec rest
  | .readMem addr width rest =>
    if m.Refuses addr width then m.raised .addressError
    else m.exec (rest (valueAt m.image addr.toNat width))
  | .writeMem addr width value rest =>
    if m.Refuses addr width then m.raised .addressError
    else { m with image := overlay m.image addr.toNat (valueBytes width value) }.exec rest
  | .raise which _ => m.raised which
  | .fail fault => .error fault

def oneInstruction (m : Flat) : Except Fault Result :=
  m.exec (.readMem (m.registers pcReg) .word fun raw =>
    (Instruction.decode raw).execute m.registers)

/-- A move, where it is possible: instructions and system calls are the program's own,
the kernel stores and leaves results only while the program waits for it, and ends a
program outside a system call only where its instruction raises an exception. -/
def step (m : Flat) : Move → Except Fault Flat
  | .execute =>
    match m.calling, m.oneInstruction with
    | false, .ok (.completed m') => .ok m'
    | _, _ => .error .disabled
  | .fault badVAddr => .ok { m with registers := m.registers.raise badVAddr }
  | .interrupt => .ok { m with registers := m.registers.flush }
  | .trap =>
    match m.calling, m.oneInstruction with
    | false, .ok (.raised .syscall) =>
      .ok { m with registers := (m.registers.raise 0).advance, calling := true }
    | _, _ => .error .disabled
  | .store addr width value =>
    if m.calling then
      .ok { m with image := overlay m.image addr.toNat (valueBytes width value) }
    else .error .disabled
  | .result value =>
    if m.calling then .ok { m with registers := m.registers.write 2 value } else .error .disabled
  | .resume => if m.calling then .ok { m with calling := false } else .error .disabled
  | .exit => if m.calling then .ok m else .error .disabled
  | .killed badVAddr =>
    match m.calling, m.oneInstruction with
    | true, _ => .ok { m with registers := m.registers.raise badVAddr }
    | false, .ok (.raised which) =>
      if which = .syscall then .error .disabled
      else .ok { m with registers := m.registers.raise badVAddr }
    | false, _ => .error .disabled

/-! ## The real machine does what the flat one does -/

variable {m : Flat} {mem : Memory}

/-- The memory of an address space of the program's size that may be written. -/
structure Fits (m : Flat) (mem : Memory) : Prop where
  holds : mem.Holds m.image
  size : mem.pageTableSize = m.numPages
  writable : ∀ v, (mem.pageTable v).readOnly = false

theorem Fits.refusal (h : m.Fits mem) (addr : BitVec 32) (width : Width) (writing : Bool) :
    mem.refusal addr width writing =
      if m.Refuses addr width then some .addressError else none := by
  unfold Memory.refusal
  rw [h.size, h.writable, Bool.false_and]
  by_cases ha : addr.toNat % width.size ≠ 0
  · rw [if_pos ha, if_pos (show m.Refuses addr width from .inl ha)]
  · by_cases hs : vpnOf addr ≥ m.numPages
    · rw [if_neg ha, if_pos hs, if_pos (show m.Refuses addr width from .inr hs)]
    · rw [if_neg ha, if_neg hs, if_neg (show ¬ m.Refuses addr width from not_or.mpr ⟨ha, hs⟩)]
      rfl

theorem Fits.steady {mem' : Memory} {image : Nat → UInt8} (h : m.Fits mem)
    (hs : mem.Steady mem') (hh : mem'.Holds image) : { m with image := image }.Fits mem' :=
  ⟨hh, hs.alike.size.trans h.size, fun v => (hs.alike.readOnly v).trans (h.writable v)⟩

/-- What the flat machine makes of an action that has the outcome `o` on the real one. -/
inductive Follows (m : Flat) (a : Action) (image : Nat → UInt8) : Outcome → Prop
  | completed {m' : Machine}
    (h : m.exec a = .ok (.completed { m with registers := m'.registers, image := image })) :
    Follows m a image (.completed m')
  | fault {m' : Machine} : Follows m a image (.raised .pageFault m')
  | raised {which : ExceptionType} {m' : Machine} (h : m.exec a = .ok (.raised which)) :
    Follows m a image (.raised which m')

theorem Follows.of_eq {m₁ : Flat} {a a₁ : Action} {image : Nat → UInt8} {o : Outcome}
    (h : m₁.Follows a₁ image o) (ha : m.exec a = m₁.exec a₁) (hn : m.numPages = m₁.numPages)
    (hc : m.calling = m₁.calling) : m.Follows a image o := by
  cases h with
  | completed h => exact .completed (by rw [ha, h, hn, hc])
  | fault => exact .fault
  | raised h => exact .raised (ha.trans h)

theorem follows_raised {a : Action} {which : ExceptionType} {badVAddr : BitVec 32} {o : Outcome}
    {image : Nat → UInt8} (ha : m.exec a = m.raised which)
    (h : Machine.raiseException ⟨m.registers, mem⟩ which badVAddr = .ok o) :
    m.Follows a image o := by
  unfold Machine.raiseException at h
  split at h
  · rename_i hload
    cases h
    exact .raised (ha.trans (if_pos hload))
  · cases h

theorem exec_flat {a : Action} {o : Outcome} (hm : m.Fits mem)
    (h : Machine.exec ⟨m.registers, mem⟩ a = .ok o) :
    m.Follows a ((mem.accesses a).foldl Access.store m.image) o := by
  induction a generalizing m mem with
  | done pcAfter nextReg nextValue =>
    simp only [Machine.exec] at h
    split at h
    · rename_i hload
      cases h
      exact .completed (if_pos hload)
    · cases h
  | assign reg value rest ih =>
    have hf := ih (m := { m with registers := m.registers.write reg value })
      ⟨hm.holds, hm.size, hm.writable⟩ h
    exact hf.of_eq rfl rfl rfl
  | readMem addr width rest ih =>
    simp only [Machine.exec] at h
    rcases Memory.readMem_cases hm.holds addr width with
      h₀ | ⟨which, hr, h₀⟩ | ⟨mem', hr, h₀, hs, hh⟩
    · rw [h₀] at h
      obtain ⟨r, rfl⟩ := Machine.raiseException_eq_ok h
      exact .fault
    · rw [h₀] at h
      rw [hm.refusal] at hr
      split at hr
      · rename_i hrefuse
        cases hr
        exact follows_raised (if_pos hrefuse) h
      · cases hr
    · rw [h₀] at h
      rw [hm.refusal] at hr
      split at hr
      · cases hr
      · rename_i hrefuse
        simp only [Memory.accesses, h₀, List.foldl_cons, Access.store]
        exact (ih _ (hm.steady hs hh) h).of_eq (if_neg hrefuse) rfl rfl
  | writeMem addr width value rest ih =>
    simp only [Machine.exec] at h
    rcases Memory.writeMem_cases hm.holds addr width value with
      h₀ | ⟨which, hr, h₀⟩ | ⟨mem', hr, h₀, hs, -, -, hh⟩
    · rw [h₀] at h
      obtain ⟨r, rfl⟩ := Machine.raiseException_eq_ok h
      exact .fault
    · rw [h₀] at h
      rw [hm.refusal] at hr
      split at hr
      · rename_i hrefuse
        cases hr
        exact follows_raised (if_pos hrefuse) h
      · cases hr
    · rw [h₀] at h
      rw [hm.refusal] at hr
      split at hr
      · cases hr
      · rename_i hrefuse
        simp only [Memory.accesses, h₀, List.foldl_cons, Access.store]
        exact (ih (hm.steady hs hh) h).of_eq (if_neg hrefuse) rfl rfl
  | raise which badVAddr => exact follows_raised rfl h
  | fail fault => cases h

theorem accesses_of_final {a : Action} (ha : a.Final) : mem.accesses a = [] := by
  induction a with
  | done | raise | fail => rfl
  | assign reg value rest ih => exact ih ha
  | readMem | writeMem => exact ha.elim

/-- An action that raises an exception has stored nothing. -/
theorem accesses_of_raised {a : Action} {r : Registers} {which : ExceptionType} {m' : Machine}
    (ha : a.Restartable) (h : Machine.exec ⟨r, mem⟩ a = .ok (.raised which m'))
    (image : Nat → UInt8) : (mem.accesses a).foldl Access.store image = image := by
  induction a generalizing mem r with
  | done | raise | fail => rfl
  | assign reg value rest =>
    change (mem.accesses rest).foldl Access.store image = image
    rw [accesses_of_final ha]
    rfl
  | readMem addr width rest ih =>
    simp only [Machine.exec] at h
    simp only [Memory.accesses]
    cases hr : mem.readMem addr width with
    | error => rfl
    | ok p =>
      rw [hr] at h
      exact ih _ (ha _) h
  | writeMem addr width value rest =>
    simp only [Machine.exec] at h
    simp only [Memory.accesses]
    cases hw : mem.writeMem addr width value with
    | error => rfl
    | ok mem' =>
      rw [hw] at h
      exact absurd h (Machine.exec_of_final ha m' which)

/-- The next instruction on the real machine and on the flat one. -/
theorem oneInstruction_flat {o : Outcome} (hm : m.Fits mem)
    (h : Machine.oneInstruction ⟨m.registers, mem⟩ = .ok o) :
    m.Follows (.readMem (m.registers pcReg) .word fun raw =>
      (Instruction.decode raw).execute m.registers)
      ((Machine.accesses ⟨m.registers, mem⟩).foldl Access.store m.image) o :=
  exec_flat hm h

end Flat
end Nachos

import Mathlib.Data.Set.Lattice
import Mathlib.Order.CompletePartialOrder
import Nachos.Lib.Run
import Nachos.Threads.Utility

/-! The context switch (switch.s and switch.h for the i386, `StackAllocate` of
thread.cc). `SWITCH` is a row of moves between the registers and two thread objects. It
goes to a thread that was never switched from as well, because `StackAllocate` makes
the object of a new thread look as if it had been. Memory is made of words, and an
access must be to an aligned address. -/

namespace Nachos.Switch
open Lib

abbrev Word := BitVec 32

inductive Reg
  | eax
  | ebx
  | ecx
  | edx
  | ebp
  | esi
  | edi
  | esp
  deriving DecidableEq, Repr

open Reg

/-- What `movl` moves: a register, `disp(base)`, or the variable `_eax_save`. -/
inductive Operand
  | reg (r : Reg)
  | at (disp : Word) (base : Reg)
  | eaxSave

/-- `back` is the address behind the call. -/
inductive Instr
  | movl (src dst : Operand)
  | pushl (src : Reg)
  | call (target : Reg) (back : Word)
  | ret

structure Cpu where
  reg : Reg → Word
  eip : Word
  mem : Word → Word
  eaxSave : Word

/-- The offsets `_ESP`, `_EAX` and so on in a thread object; `_PC` follows them. -/
def offset : Reg → Word
  | esp => 0#32
  | eax => 4#32
  | ebx => 8#32
  | ecx => 12#32
  | edx => 16#32
  | ebp => 20#32
  | esi => 24#32
  | edi => 28#32

def offsetPC : Word := 32#32

def Aligned (a : Word) : Prop := a.toNat % 4 = 0

instance (a : Word) : Decidable (Aligned a) := inferInstanceAs (Decidable (_ = _))

namespace Cpu

def setReg (c : Cpu) (r : Reg) (x : Word) : Cpu := { c with reg := Function.update c.reg r x }

def setMem (c : Cpu) (a x : Word) : Cpu := { c with mem := Function.update c.mem a x }

def load (c : Cpu) (a : Word) : Except Fault Word :=
  if Aligned a then .ok (c.mem a) else .error .undefined

def store (c : Cpu) (a x : Word) : Except Fault Cpu :=
  if Aligned a then .ok (c.setMem a x) else .error .undefined

def read (c : Cpu) : Operand → Except Fault Word
  | .reg r => .ok (c.reg r)
  | .at disp base => c.load (c.reg base + disp)
  | .eaxSave => .ok c.eaxSave

def write (c : Cpu) (x : Word) : Operand → Except Fault Cpu
  | .reg r => .ok (c.setReg r x)
  | .at disp base => c.store (c.reg base + disp) x
  | .eaxSave => .ok { c with eaxSave := x }

def push (c : Cpu) (x : Word) : Except Fault Cpu :=
  (c.setReg esp (c.reg esp - 4#32)).store (c.reg esp - 4#32) x

def step (c : Cpu) : Instr → Except Fault Cpu
  | .movl src dst => do
    let x ← c.read src
    c.write x dst
  | .pushl src => c.push (c.reg src)
  | .call target back => do
    let c' ← c.push back
    .ok { c' with eip := c.reg target }
  | .ret => do
    let x ← c.load (c.reg esp)
    .ok { c.setReg esp (c.reg esp + 4#32) with eip := x }

def exec (c : Cpu) (code : List Instr) : Except Fault Cpu := code.foldlM step c

@[simp] theorem reg_setMem (c : Cpu) (a x : Word) : (c.setMem a x).reg = c.reg := rfl
@[simp] theorem eaxSave_setMem (c : Cpu) (a x : Word) : (c.setMem a x).eaxSave = c.eaxSave := rfl
@[simp] theorem mem_setReg (c : Cpu) (r : Reg) (x : Word) : (c.setReg r x).mem = c.mem := rfl
@[simp] theorem eaxSave_setReg (c : Cpu) (r : Reg) (x : Word) :
    (c.setReg r x).eaxSave = c.eaxSave := rfl

theorem mem_setMem (c : Cpu) (a x b : Word) :
    (c.setMem a x).mem b = if b = a then x else c.mem b := Function.update_apply ..

@[simp] theorem reg_setReg_self (c : Cpu) (r : Reg) (x : Word) : (c.setReg r x).reg r = x :=
  Function.update_self ..

@[simp] theorem reg_setReg_of_ne (c : Cpu) {r q : Reg} (h : q ≠ r) (x : Word) :
    (c.setReg r x).reg q = c.reg q := Function.update_of_ne h ..

variable {c : Cpu} {code : List Instr} {r b : Reg} {d : Word}

theorem exec_cons {i : Instr} {c' : Cpu} (h : c.step i = .ok c') :
    c.exec (i :: code) = c'.exec code := by
  rw [exec, List.foldlM_cons, h, ok_bind]
  rfl

theorem exec_append (code' : List Instr) :
    c.exec (code ++ code') = c.exec code >>= fun c' => c'.exec code' := List.foldlM_append

theorem exec_load (h : Aligned (c.reg b + d)) :
    c.exec (.movl (.at d b) (.reg r) :: code) =
      (c.setReg r (c.mem (c.reg b + d))).exec code :=
  exec_cons (by simp only [step, read, load, if_pos h, ok_bind, write])

theorem exec_store (h : Aligned (c.reg b + d)) :
    c.exec (.movl (.reg r) (.at d b) :: code) = (c.setMem (c.reg b + d) (c.reg r)).exec code :=
  exec_cons (by simp only [step, read, ok_bind, write, store, if_pos h])

theorem exec_keep :
    c.exec (.movl (.reg r) .eaxSave :: code) = { c with eaxSave := c.reg r }.exec code :=
  exec_cons rfl

theorem exec_unkeep :
    c.exec (.movl .eaxSave (.reg r) :: code) = (c.setReg r c.eaxSave).exec code := exec_cons rfl

theorem exec_ret (h : Aligned (c.reg esp)) :
    c.exec (.ret :: code) =
      { c.setReg esp (c.reg esp + 4#32) with eip := c.mem (c.reg esp) }.exec code :=
  exec_cons (by simp only [step, load, if_pos h, ok_bind])

end Cpu

/-! ## The code -/

/-- `SWITCH`, as far as it saves `t1`. -/
def saveCode : List Instr :=
  [.movl (.reg eax) .eaxSave,
   .movl (.at 4#32 esp) (.reg eax),
   .movl (.reg ebx) (.at (offset ebx) eax),
   .movl (.reg ecx) (.at (offset ecx) eax),
   .movl (.reg edx) (.at (offset edx) eax),
   .movl (.reg esi) (.at (offset esi) eax),
   .movl (.reg edi) (.at (offset edi) eax),
   .movl (.reg ebp) (.at (offset ebp) eax),
   .movl (.reg esp) (.at (offset esp) eax),
   .movl .eaxSave (.reg ebx),
   .movl (.reg ebx) (.at (offset eax) eax),
   .movl (.at 0#32 esp) (.reg ebx),
   .movl (.reg ebx) (.at offsetPC eax)]

/-- The rest of `SWITCH`, in which `t2` takes over. -/
def restoreCode : List Instr :=
  [.movl (.at 8#32 esp) (.reg eax),
   .movl (.at (offset eax) eax) (.reg ebx),
   .movl (.reg ebx) .eaxSave,
   .movl (.at (offset ebx) eax) (.reg ebx),
   .movl (.at (offset ecx) eax) (.reg ecx),
   .movl (.at (offset edx) eax) (.reg edx),
   .movl (.at (offset esi) eax) (.reg esi),
   .movl (.at (offset edi) eax) (.reg edi),
   .movl (.at (offset ebp) eax) (.reg ebp),
   .movl (.at (offset esp) eax) (.reg esp),
   .movl (.at offsetPC eax) (.reg eax),
   .movl (.reg eax) (.at 4#32 esp),
   .movl .eaxSave (.reg eax),
   .ret]

/-- `SWITCH(t1, t2)`. -/
def switchCode : List Instr := saveCode ++ restoreCode

/-! ## What `SWITCH` does -/

/-- Memory once the registers of a thread are in its object `t`. -/
def saved (mem : Word → Word) (t : Word) (reg : Reg → Word) (pc : Word) (a : Word) : Word :=
  if a = t + offsetPC then pc
  else if a = t + offset eax then reg eax
  else if a = t + offset esp then reg esp
  else if a = t + offset ebp then reg ebp
  else if a = t + offset edi then reg edi
  else if a = t + offset esi then reg esi
  else if a = t + offset edx then reg edx
  else if a = t + offset ecx then reg ecx
  else if a = t + offset ebx then reg ebx
  else mem a

/-- The words of a thread object that `SWITCH` uses. -/
def area (t : Word) : Set Word := { a | (∃ r, a = t + offset r) ∨ a = t + offsetPC }

theorem aligned_add {a : Word} (h : Aligned a) {d : Word} (hd : Aligned d) : Aligned (a + d) := by
  unfold Aligned at *
  rw [BitVec.toNat_add]
  omega

theorem aligned_offset (r : Reg) : Aligned (offset r) := by cases r <;> decide

theorem mem_area_reg (t : Word) (r : Reg) : t + offset r ∈ area t := .inl ⟨r, rfl⟩

theorem mem_area_pc (t : Word) : t + offsetPC ∈ area t := .inr rfl

theorem saved_of_not_mem {mem : Word → Word} {t : Word} {reg : Reg → Word} {pc a : Word}
    (h : a ∉ area t) : saved mem t reg pc a = mem a := by
  have hr : ∀ r, a ≠ t + offset r := fun r e => h (e ▸ mem_area_reg t r)
  have hp : a ≠ t + offsetPC := fun e => h (e ▸ mem_area_pc t)
  simp only [saved, hr, hp, if_false]

theorem saved_reg (mem : Word → Word) (t : Word) (reg : Reg → Word) (pc : Word) (r : Reg) :
    saved mem t reg pc (t + offset r) = reg r := by
  cases r <;> simp [saved, offset, offsetPC]

theorem saved_pc (mem : Word → Word) (t : Word) (reg : Reg → Word) (pc : Word) :
    saved mem t reg pc (t + offsetPC) = pc := if_pos rfl

/-- The processor half way through `SWITCH`: `t` is saved, nothing is restored. -/
def afterSave (c : Cpu) (t : Word) : Cpu :=
  { c with
    reg := Function.update (Function.update c.reg eax t) ebx (c.mem (c.reg esp))
    mem := saved c.mem t c.reg (c.mem (c.reg esp))
    eaxSave := c.reg eax }

theorem saveCode_spec {c : Cpu} {t : Word} (hesp : Aligned (c.reg esp)) (ht : Aligned t)
    (hold : c.mem (c.reg esp + 4#32) = t) (hret : c.reg esp ∉ area t) :
    c.exec saveCode = .ok (afterSave c t) := by
  have ha : ∀ r, Aligned (t + offset r) := fun r => aligned_add ht (aligned_offset r)
  have hp : Aligned (t + offsetPC) := aligned_add ht (by decide)
  have h4 : Aligned (c.reg esp + 4#32) := aligned_add hesp (by decide)
  have h0 : Aligned (c.reg esp + 0#32) := aligned_add hesp (by decide)
  have hr : ∀ r, c.reg esp ≠ t + offset r := fun r e => hret (e ▸ mem_area_reg t r)
  have hexec : ∃ c', c.exec saveCode = .ok c' ∧ c'.reg = (afterSave c t).reg ∧
      c'.eip = c.eip ∧ c'.eaxSave = c.reg eax ∧ c'.mem = (afterSave c t).mem := by
    simp (disch := simp only [Cpu.reg_setMem, Cpu.mem_setReg, Cpu.reg_setReg_self,
      Cpu.reg_setReg_of_ne, ne_eq, reduceCtorEq, not_false_eq_true, hold, ha, hp, h0, h4]) only
      [saveCode, Cpu.exec_keep, Cpu.exec_load, Cpu.exec_store, Cpu.exec_unkeep]
    refine ⟨_, rfl, ?_, rfl, rfl, ?_⟩
    · funext r
      cases r <;> simp [afterSave, Cpu.mem_setMem, hr, hold]
    · funext a
      simp [afterSave, saved, Cpu.mem_setMem, hr, hold]
  obtain ⟨c', he, h1, h2, h3, h4⟩ := hexec
  rw [he]
  cases c'
  simp_all [afterSave]

/-- What `SWITCH` leaves once the thread `t` has taken over. The word above its stack
pointer, where the argument `t1` of its own call was, gets its program counter. -/
def afterRestore (c : Cpu) (t : Word) : Cpu :=
  { reg := Function.update (fun r => c.mem (t + offset r)) esp (c.mem (t + offset esp) + 4#32)
    eip := c.mem (c.mem (t + offset esp))
    mem := Function.update c.mem (c.mem (t + offset esp) + 4#32) (c.mem (t + offsetPC))
    eaxSave := c.mem (t + offset eax) }

theorem restoreCode_spec {c : Cpu} {t : Word} (hesp : Aligned (c.reg esp)) (ht : Aligned t)
    (hnew : c.mem (c.reg esp + 8#32) = t) (hsp : Aligned (c.mem (t + offset esp))) :
    c.exec restoreCode = .ok (afterRestore c t) := by
  have ha : ∀ r, Aligned (t + offset r) := fun r => aligned_add ht (aligned_offset r)
  have hp : Aligned (t + offsetPC) := aligned_add ht (by decide)
  have h8 : Aligned (c.reg esp + 8#32) := aligned_add hesp (by decide)
  have hs4 : Aligned (c.mem (t + offset esp) + 4#32) := aligned_add hsp (by decide)
  have hexec : ∃ c', c.exec restoreCode = .ok c' ∧ c'.reg = (afterRestore c t).reg ∧
      c'.eip = (afterRestore c t).eip ∧ c'.eaxSave = (afterRestore c t).eaxSave ∧
      c'.mem = (afterRestore c t).mem := by
    simp (disch := simp only [Cpu.reg_setMem, Cpu.mem_setReg, Cpu.reg_setReg_self,
      Cpu.reg_setReg_of_ne, ne_eq, reduceCtorEq, not_false_eq_true, hnew, ha, hp, h8, hsp,
      hs4]) only [restoreCode, Cpu.exec_keep, Cpu.exec_load, Cpu.exec_store, Cpu.exec_unkeep,
      Cpu.exec_ret]
    refine ⟨_, rfl, ?_, ?_, ?_, ?_⟩
    · funext r
      cases r <;> simp [afterRestore, hnew, Cpu.setReg]
    · simp [afterRestore, hnew, Cpu.mem_setMem]
    · simp [afterRestore, hnew]
    · funext a
      simp [afterRestore, hnew, Cpu.mem_setMem, Function.update_apply]
  obtain ⟨c', he, h1, h2, h3, h4⟩ := hexec
  rw [he]
  cases c'
  simp_all

def switched (c : Cpu) (t1 t2 : Word) : Cpu := afterRestore (afterSave c t1) t2

theorem switchCode_spec {c : Cpu} {t1 t2 : Word} (hesp : Aligned (c.reg esp))
    (ht1 : Aligned t1) (ht2 : Aligned t2) (hold : c.mem (c.reg esp + 4#32) = t1)
    (hnew : c.mem (c.reg esp + 8#32) = t2) (hret : c.reg esp ∉ area t1)
    (harg : c.reg esp + 8#32 ∉ area t1) (hsp : Aligned ((afterSave c t1).mem (t2 + offset esp))) :
    c.exec switchCode = .ok (switched c t1 t2) := by
  have hs : (afterSave c t1).reg esp = c.reg esp := by simp [afterSave]
  rw [switchCode, Cpu.exec_append, saveCode_spec hesp ht1 hold hret, ok_bind]
  refine restoreCode_spec (hs ▸ hesp) ht2 ?_ hsp
  rw [hs]
  exact (saved_of_not_mem harg).trans hnew

/-! ## A new thread -/

/-- The addresses `StackAllocate` gets from the linker. -/
structure Labels where
  threadRoot : Word
  interruptEnable : Word
  threadFinish : Word

/-- `StackSize`, in words. -/
def stackSize : Nat := 4 * 1024

/-- `STACK_FENCEPOST` -/
def stackFencepost : Word := 0xdeadbeef#32

/-- `stack + i` -/
def stackWord (stack : Word) (i : Nat) : Word := stack + BitVec.ofNat 32 (4 * i)

def stackWords (stack : Word) : Set Word := { a | ∃ i < stackSize, a = stackWord stack i }

/-- `stackTop` of a new thread, with the address of `ThreadRoot` pushed. -/
def stackTop (stack : Word) : Word := stackWord stack (stackSize - 4 - 1)

/-- What `Thread::StackAllocate` stores, in its order. -/
def stackAllocate (l : Labels) (t stack func arg : Word) : List (Word × Word) :=
  [(t + offset esp, stackTop stack),
   (stackTop stack, l.threadRoot),
   (stack, stackFencepost),
   (t + offsetPC, l.threadRoot),
   (t + offset ecx, l.interruptEnable),
   (t + offset esi, func),
   (t + offset edx, arg),
   (t + offset edi, l.threadFinish)]

def storeAll (mem : Word → Word) (ws : List (Word × Word)) : Word → Word :=
  ws.foldl (fun m w => Function.update m w.1 w.2) mem

theorem stackTop_mem (stack : Word) : stackTop stack ∈ stackWords stack :=
  ⟨stackSize - 4 - 1, by decide, rfl⟩

theorem stackTop_add_four (stack : Word) :
    stackTop stack + 4#32 = stackWord stack (stackSize - 4) := by
  rw [stackTop, stackWord, stackWord, BitVec.add_assoc]
  rfl

theorem stackTop_add_four_mem (stack : Word) : stackTop stack + 4#32 ∈ stackWords stack :=
  ⟨stackSize - 4, by decide, stackTop_add_four stack⟩

theorem base_mem (stack : Word) : stack ∈ stackWords stack :=
  ⟨0, by decide, by simp [stackWord]⟩

theorem aligned_of_mem_stackWords {stack a : Word} (h : Aligned stack)
    (ha : a ∈ stackWords stack) : Aligned a := by
  obtain ⟨i, hi, rfl⟩ := ha
  refine aligned_add h ?_
  unfold Aligned
  rw [BitVec.toNat_ofNat]
  omega

theorem aligned_of_mem_area {t a : Word} (h : Aligned t) (ha : a ∈ area t) : Aligned a := by
  obtain ⟨r, rfl⟩ | rfl := ha
  · exact aligned_add h (aligned_offset r)
  · exact aligned_add h (by decide)

theorem storeAll_of_not_mem {ws : List (Word × Word)} {a : Word} (h : ∀ w ∈ ws, a ≠ w.1)
    (mem : Word → Word) : storeAll mem ws a = mem a := by
  induction ws generalizing mem with
  | nil => rfl
  | cons w ws ih =>
    rw [storeAll, List.foldl_cons]
    refine (ih (fun v hv => h v (List.mem_cons_of_mem w hv)) _).trans ?_
    exact Function.update_of_ne (h w List.mem_cons_self) ..

theorem stackAllocate_frame {l : Labels} {t stack func arg a : Word} {mem : Word → Word}
    (ht : a ∉ area t) (hs : a ∉ stackWords stack) :
    storeAll mem (stackAllocate l t stack func arg) a = mem a := by
  have hr : ∀ r, a ≠ t + offset r := fun r e => ht (e ▸ mem_area_reg t r)
  have hp : a ≠ t + offsetPC := fun e => ht (e ▸ mem_area_pc t)
  have htop : a ≠ stackTop stack := fun e => hs (e ▸ stackTop_mem stack)
  have hbase : a ≠ stack := fun e => hs (e ▸ base_mem stack)
  refine storeAll_of_not_mem ?_ mem
  simp [stackAllocate, hr, hp, htop, hbase]

/-- Where a new thread starts, whatever its registers without a role hold. -/
theorem stackAllocate_spec (l : Labels) {t stack : Word} (func arg : Word)
    (mem : Word → Word) (h : Disjoint (area t) (stackWords stack)) :
    let m := storeAll mem (stackAllocate l t stack func arg)
    m (t + offset esp) = stackTop stack ∧ m (stackTop stack) = l.threadRoot ∧
    m (t + offset ecx) = l.interruptEnable ∧ m (t + offset esi) = func ∧
    m (t + offset edx) = arg ∧ m (t + offset edi) = l.threadFinish := by
  have htop : ∀ a ∈ area t, stackTop stack ≠ a := fun a ha e =>
    Set.disjoint_left.mp h ha (e ▸ stackTop_mem stack)
  have hbase : ∀ a ∈ area t, a ≠ stack := fun a ha e =>
    Set.disjoint_left.mp h ha (e ▸ base_mem stack)
  have hr := fun r => htop _ (mem_area_reg t r)
  have hp := htop _ (mem_area_pc t)
  have hb := fun r => hbase _ (mem_area_reg t r)
  have hne : stackTop stack ≠ stack := by
    intro e
    have : BitVec.ofNat 32 (4 * (stackSize - 4 - 1)) = 0#32 := by
      simpa [stackTop, stackWord] using e
    exact absurd this (by decide)
  simp only [storeAll, stackAllocate, List.foldl_cons, List.foldl_nil]
  refine ⟨?_, ?_, ?_, ?_, ?_, ?_⟩ <;>
    simp [Function.update_apply, hr, hp, hb, hne, (hr _).symm] <;>
    simp [offset, offsetPC]

end Nachos.Switch

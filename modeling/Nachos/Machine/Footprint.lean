import Nachos.Machine.MipsSim

/-! The footprint of an instruction: which registers its code reads and
assigns, opcode by opcode, and the order in which it does things. No opcode
assigns a register or stores to memory before its last access that can fault,
so each can be started over. -/

namespace Nachos
open Lib

/-! ## What an instruction touches -/

namespace OpCode

def readsRs : OpCode → Bool
  | .j | .jal | .lui | .mfhi | .mflo | .sll | .sra | .srl | .syscall | .unimp | .res | .rfe
  | .special | .bcond => false
  | _ => true

/-- `or` is not among them: its code takes `rs` twice. -/
def readsRt : OpCode → Bool
  | .add | .addu | .and | .beq | .bne | .div | .divu | .lwl | .lwr | .mult | .multu | .nor | .sb
  | .sh | .sll | .sllv | .slt | .sltu | .sra | .srav | .srl | .srlv | .sub | .subu | .sw | .swl
  | .swr | .xor => true
  | _ => false

def writesRd : OpCode → Bool
  | .add | .addu | .and | .jalr | .mfhi | .mflo | .nor | .or | .sll | .sllv | .slt | .sltu | .sra
  | .srav | .srl | .srlv | .sub | .subu | .xor => true
  | _ => false

def writesRt : OpCode → Bool
  | .addi | .addiu | .andi | .lui | .ori | .slti | .sltiu | .xori => true
  | _ => false

def links : OpCode → Bool
  | .bgezal | .bltzal | .jal => true
  | _ => false

def writesHi : OpCode → Bool
  | .div | .divu | .mult | .multu | .mthi => true
  | _ => false

def writesLo : OpCode → Bool
  | .div | .divu | .mult | .multu | .mtlo => true
  | _ => false

end OpCode

namespace Instruction

/-- The general registers, `Hi` and `Lo` as far as the instruction uses their
values. -/
def Reads (i : Instruction) (x : Fin numTotalRegs) : Prop :=
  i.opCode.readsRs = true ∧ x = i.rs ∨ i.opCode.readsRt = true ∧ x = i.rt ∨
    i.opCode = .mfhi ∧ x = hiReg ∨ i.opCode = .mflo ∧ x = loReg

/-- The registers the instruction assigns. The target of a load is not among
them: it is assigned behind the next instruction. -/
def Writes (i : Instruction) (x : Fin numTotalRegs) : Prop :=
  i.opCode.writesRd = true ∧ x = i.rd ∨ i.opCode.writesRt = true ∧ x = i.rt ∨
    i.opCode.links = true ∧ x = r31 ∨ i.opCode.writesHi = true ∧ x = hiReg ∨
    i.opCode.writesLo = true ∧ x = loReg

/-- The registers the simulator itself uses for every instruction. -/
def Control (x : Fin numTotalRegs) : Prop :=
  x = pcReg ∨ x = nextPCReg ∨ x = prevPCReg ∨ x = loadReg ∨ x = loadValueReg

def Touches (i : Instruction) (x : Fin numTotalRegs) : Prop :=
  i.Reads x ∨ i.Writes x ∨ Control x

instance (i : Instruction) (x : Fin numTotalRegs) : Decidable (i.Touches x) := by
  unfold Touches Reads Writes Control; infer_instance

end Instruction

namespace Action

/-- Every register the action assigns is one of `S`. -/
def AssignsIn (S : Fin numTotalRegs → Prop) : Action → Prop
  | .assign reg _ rest => S reg ∧ rest.AssignsIn S
  | .readMem _ _ rest => ∀ value, (rest value).AssignsIn S
  | .writeMem _ _ _ rest => rest.AssignsIn S
  | .done .. | .raise .. | .fail _ => True

/-- Nothing but assignments is left. -/
def Final : Action → Prop
  | .done .. => True
  | .assign _ _ rest => rest.Final
  | _ => False

/-- Once the action has assigned a register or stored to memory it cannot
fault any more. -/
def Restartable : Action → Prop
  | .assign _ _ rest | .writeMem _ _ _ rest => rest.Final
  | .readMem _ _ rest => ∀ value, (rest value).Restartable
  | .done .. | .raise .. | .fail _ => True

/-- The action raises no page fault of its own. -/
def NoFault : Action → Prop
  | .assign _ _ rest | .writeMem _ _ _ rest => rest.NoFault
  | .readMem _ _ rest => ∀ value, (rest value).NoFault
  | .raise which _ => which ≠ .pageFault
  | .done .. | .fail _ => True

end Action

namespace Instruction

theorem execute_assigns (i : Instruction) (r : Registers) : (i.execute r).AssignsIn i.Writes := by
  obtain ⟨op, rs, rt, rd, extra⟩ := i
  cases op <;> simp only [execute, Action.set, Action.setHiLo, Action.jump, Action.load,
    Action.setUnless, Action.shift, Action.aligned, Action.assertWord] <;>
    (repeat' split) <;> simp [Action.AssignsIn, Writes, OpCode.writesRd, OpCode.writesRt,
      OpCode.links, OpCode.writesHi, OpCode.writesLo]

theorem execute_restartable (i : Instruction) (r : Registers) : (i.execute r).Restartable := by
  obtain ⟨op, rs, rt, rd, extra⟩ := i
  cases op <;> simp only [execute, Action.set, Action.setHiLo, Action.jump, Action.load,
    Action.setUnless, Action.shift, Action.aligned, Action.assertWord] <;>
    (repeat' split) <;> simp [Action.Restartable, Action.Final]

theorem execute_noFault (i : Instruction) (r : Registers) : (i.execute r).NoFault := by
  obtain ⟨op, rs, rt, rd, extra⟩ := i
  cases op <;> simp only [execute, Action.set, Action.setHiLo, Action.jump, Action.load,
    Action.setUnless, Action.shift, Action.aligned, Action.assertWord] <;>
    (repeat' split) <;> simp [Action.NoFault]

/-- The code of an instruction depends on no register but those it reads, the
next program counter and, for a partial-word load, what is pending for its
target. -/
theorem execute_congr {i : Instruction} {r s : Registers} (h : ∀ x, i.Reads x → r x = s x)
    (hnext : r nextPCReg = s nextPCReg)
    (hmerged : i.opCode.readsRt → r.merged i.rt = s.merged i.rt) : i.execute r = i.execute s := by
  have hrs (hop : i.opCode.readsRs = true) : r i.rs = s i.rs := h _ (.inl ⟨hop, rfl⟩)
  have hrt (hop : i.opCode.readsRt = true) : r i.rt = s i.rt := h _ (.inr (.inl ⟨hop, rfl⟩))
  have hhi (hop : i.opCode = .mfhi) : r hiReg = s hiReg := h _ (.inr (.inr (.inl ⟨hop, rfl⟩)))
  have hlo (hop : i.opCode = .mflo) : r loReg = s loReg := h _ (.inr (.inr (.inr ⟨hop, rfl⟩)))
  clear h
  obtain ⟨op, rs, rt, rd, extra⟩ := i
  cases op <;> simp [OpCode.readsRs, OpCode.readsRt] at hrs hrt hhi hlo hmerged <;>
    simp [execute, Registers.write, Function.update_apply, *]

end Instruction

theorem Action.AssignsIn.mono {S T : Fin numTotalRegs → Prop} {a : Action} (h : a.AssignsIn S)
    (hST : ∀ x, S x → T x) : a.AssignsIn T := by
  induction a with
  | assign reg value rest ih => exact ⟨hST _ h.1, ih h.2⟩
  | readMem addr width rest ih => exact fun value => ih value (h value)
  | writeMem addr width value rest ih => exact ih h
  | done | raise | fail => trivial

theorem GPReg.lt_pcReg (reg : GPReg) : (reg : Fin numTotalRegs) < pcReg :=
  Fin.lt_def.mpr (Nat.lt_of_lt_of_le reg.isLt (by decide))

theorem GPReg.toNat_ofNat (reg : GPReg) : (BitVec.ofNat 32 reg).toNat = reg := by
  rw [BitVec.toNat_ofNat]
  exact Nat.mod_eq_of_lt (Nat.lt_trans reg.isLt (by decide))

theorem Instruction.Reads.lt {i : Instruction} {x : Fin numTotalRegs} (h : i.Reads x) :
    x < pcReg := by
  rcases h with ⟨-, rfl⟩ | ⟨-, rfl⟩ | ⟨-, rfl⟩ | ⟨-, rfl⟩
  · exact GPReg.lt_pcReg _
  · exact GPReg.lt_pcReg _
  · decide
  · decide

theorem Instruction.Writes.lt {i : Instruction} {x : Fin numTotalRegs} (h : i.Writes x) :
    x < pcReg := by
  rcases h with ⟨-, rfl⟩ | ⟨-, rfl⟩ | ⟨-, rfl⟩ | ⟨-, rfl⟩ | ⟨-, rfl⟩
  · exact GPReg.lt_pcReg _
  · exact GPReg.lt_pcReg _
  · decide
  · decide
  · decide

end Nachos

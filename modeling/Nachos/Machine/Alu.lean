import Nachos.Lib.Bits
import Nachos.Machine.Footprint
import Nachos.Machine.VirtualMemory

/-! The arithmetic and logic instructions. What the R2000 makes of an
instruction word is defined here from the word's fields alone; the simulator's
decoding and its `switch` are compared with that. Three of the instructions do
something else: `or` takes its first operand twice, and the two logical shifts
to the right shift the sign in. -/

namespace Nachos
open Lib

/-! ## The architecture -/

namespace R2000

def op (raw : BitVec 32) : BitVec 6 := raw.extractLsb' 26 6
def rs (raw : BitVec 32) : GPReg := (raw.extractLsb' 21 5).toFin
def rt (raw : BitVec 32) : GPReg := (raw.extractLsb' 16 5).toFin
def rd (raw : BitVec 32) : GPReg := (raw.extractLsb' 11 5).toFin
def shamt (raw : BitVec 32) : BitVec 5 := raw.extractLsb' 6 5
def funct (raw : BitVec 32) : BitVec 6 := raw.extractLsb' 0 6
def imm (raw : BitVec 32) : BitVec 16 := raw.extractLsb' 0 16

/-- The instructions that compute a register from registers and the immediate
operand, without a trap. -/
inductive Operation
  | addu | addiu | subu | and | andi | or | ori | xor | xori | nor | sll | sllv | srl | srlv
  | sra | srav | slt | slti | sltu | sltiu | lui
  deriving DecidableEq, Repr

/-- The operation an instruction word stands for, if it is one of them. -/
def operation (raw : BitVec 32) : Option Operation :=
  match (op raw).toNat with
  | 0x00 =>
    match (funct raw).toNat with
    | 0x00 => some .sll
    | 0x02 => some .srl
    | 0x03 => some .sra
    | 0x04 => some .sllv
    | 0x06 => some .srlv
    | 0x07 => some .srav
    | 0x21 => some .addu
    | 0x23 => some .subu
    | 0x24 => some .and
    | 0x25 => some .or
    | 0x26 => some .xor
    | 0x27 => some .nor
    | 0x2a => some .slt
    | 0x2b => some .sltu
    | _ => none
  | 0x09 => some .addiu
  | 0x0a => some .slti
  | 0x0b => some .sltiu
  | 0x0c => some .andi
  | 0x0d => some .ori
  | 0x0e => some .xori
  | 0x0f => some .lui
  | _ => none

namespace Operation

def immediate : Operation → Bool
  | .addiu | .slti | .sltiu | .andi | .ori | .xori | .lui => true
  | _ => false

/-- The register the result goes to. -/
def dest (o : Operation) (raw : BitVec 32) : GPReg := if o.immediate then rt raw else rd raw

/-- The result. -/
def value (o : Operation) (raw : BitVec 32) (r : Registers) : BitVec 32 :=
  let s := r (rs raw)
  let t := r (rt raw)
  let zeroExtended := (imm raw).setWidth 32
  let signExtended := (imm raw).signExtend 32
  -- a variable shift goes by the low five bits of its register
  let amount := (s.extractLsb' 0 5).toNat
  match o with
  | .addu => s + t
  | .addiu => s + signExtended
  | .subu => s - t
  | .and => s &&& t
  | .andi => s &&& zeroExtended
  | .or => s ||| t
  | .ori => s ||| zeroExtended
  | .xor => s ^^^ t
  | .xori => s ^^^ zeroExtended
  | .nor => ~~~(s ||| t)
  | .sll => t <<< (shamt raw).toNat
  | .sllv => t <<< amount
  | .srl => t >>> (shamt raw).toNat
  | .srlv => t >>> amount
  | .sra => t.sshiftRight (shamt raw).toNat
  | .srav => t.sshiftRight amount
  | .slt => if s.toInt < t.toInt then 1 else 0
  | .slti => if s.toInt < signExtended.toInt then 1 else 0
  | .sltu => if s.toNat < t.toNat then 1 else 0
  | .sltiu => if s.toNat < signExtended.toNat then 1 else 0
  | .lui => imm raw ++ 0#16

/-- The registers behind an instruction that computes this operation: its result
is in its register, register 0 stays zero, and the other general registers have
not changed. -/
structure Follows (o : Operation) (raw : BitVec 32) (r r' : Registers) : Prop where
  dest : o.dest raw ≠ 0 → r' (o.dest raw) = o.value raw r
  zero : r' 0 = 0
  others : ∀ x : GPReg, x ≠ 0 → x ≠ o.dest raw → r' x = r x

/-- The operands for which the simulator computes the right value. -/
def Agrees (o : Operation) (raw : BitVec 32) (r : Registers) : Prop :=
  match o with
  | .or => r (rt raw) &&& ~~~r (rs raw) = 0
  | .srl => shamt raw = 0 ∨ (r (rt raw)).msb = false
  | .srlv => (r (rs raw)).extractLsb' 0 5 = 0 ∨ (r (rt raw)).msb = false
  | _ => True

/-- The simulator's opcode. -/
def opCode : Operation → OpCode
  | .addu => .addu
  | .addiu => .addiu
  | .subu => .subu
  | .and => .and
  | .andi => .andi
  | .or => .or
  | .ori => .ori
  | .xor => .xor
  | .xori => .xori
  | .nor => .nor
  | .sll => .sll
  | .sllv => .sllv
  | .srl => .srl
  | .srlv => .srlv
  | .sra => .sra
  | .srav => .srav
  | .slt => .slt
  | .slti => .slti
  | .sltu => .sltu
  | .sltiu => .sltiu
  | .lui => .lui

end Operation
end R2000

/-! ## Decoding -/

namespace R2000
open Instruction

theorem regField_eq (raw : BitVec 32) (shift : Nat) :
    regField raw shift = (raw.extractLsb' shift 5).toFin :=
  Fin.ext (toNat_field (by decide : 5 ≤ 32) raw shift)

theorem decodeExtra_ifmt (raw : BitVec 32) : decodeExtra raw .ifmt = (imm raw).signExtend 32 :=
  extend_field (by decide : 0 < 16) (by decide) raw

theorem decodeExtra_rfmt (raw : BitVec 32) : decodeExtra raw .rfmt = (shamt raw).setWidth 32 := by
  apply BitVec.eq_of_toNat_eq
  have hlt := (shamt raw).isLt
  rw [BitVec.toNat_setWidth, Nat.mod_eq_of_lt (by omega)]
  exact toNat_field (by decide : 5 ≤ 32) raw 6

/-- Decoding, with the fields of the architecture. -/
theorem decode_eq (raw : BitVec 32) :
    let entry := opTable.getD (op raw).toNat (.res, .ifmt)
    decode raw = ⟨decodeOp raw entry.1, rs raw, rt raw, rd raw, decodeExtra raw entry.2⟩ := by
  have hop : (raw >>> 26 &&& 0x3f).toNat = (op raw).toNat :=
    toNat_field (by decide : 6 ≤ 32) raw 26
  simp only [decode, hop, regField_eq]
  rfl

theorem decodeOp_special (raw : BitVec 32) :
    decodeOp raw .special = specialTable.getD (funct raw).toNat .res := by
  have hfunct : (raw >>> 0 &&& 0x3f).toNat = (funct raw).toNat :=
    toNat_field (by decide : 6 ≤ 32) raw 0
  rw [decodeOp, ← hfunct]
  simp

theorem decode_special {raw : BitVec 32} (hop : (op raw).toNat = 0) :
    decode raw = ⟨specialTable.getD (funct raw).toNat .res, rs raw, rt raw, rd raw,
      (shamt raw).setWidth 32⟩ := by
  rw [decode_eq, hop]
  change Instruction.mk (decodeOp raw .special) _ _ _ (decodeExtra raw .rfmt) = _
  rw [decodeOp_special, decodeExtra_rfmt]

theorem decode_of_operation {raw : BitVec 32} {o : Operation} (h : operation raw = some o) :
    decode raw = ⟨o.opCode, rs raw, rt raw, rd raw,
      if o.immediate then (imm raw).signExtend 32 else (shamt raw).setWidth 32⟩ := by
  unfold operation at h
  split at h
  · rename_i hop
    rw [decode_special hop]
    split at h
    all_goals first
      | cases h
        rename_i hfunct
        rw [hfunct]
        rfl
      | cases h
  all_goals first
    | cases h
      rename_i hop
      rw [decode_eq, hop]
      exact congrArg _ (decodeExtra_ifmt raw)
    | cases h

/-! ## What the simulator computes -/

theorem or_self_eq_or_iff (s t : BitVec 32) : s ||| s = s ||| t ↔ t &&& ~~~s = 0 := by
  rw [BitVec.or_self, BitVec.eq_of_getLsbD_eq_iff, BitVec.eq_of_getLsbD_eq_iff]
  refine forall₂_congr fun i hi => ?_
  rw [BitVec.getLsbD_or, BitVec.getLsbD_and, BitVec.getLsbD_not]
  cases s.getLsbD i <;> simp [hi]

/-- The arithmetic shift is the logical one if it shifts no sign in. -/
theorem sshiftRight_eq_ushiftRight_iff (t : BitVec 32) (field : BitVec 5) :
    t.sshiftRight field.toNat = t >>> field.toNat ↔ field = 0 ∨ t.msb = false := by
  constructor
  · intro h
    have hmsb := congrArg BitVec.msb h
    rw [BitVec.msb_sshiftRight, BitVec.msb_ushiftRight] at hmsb
    by_cases hn : field = 0
    · exact .inl hn
    · have hpos : 0 < field.toNat := Nat.pos_of_ne_zero fun h0 => hn (BitVec.eq_of_toNat_eq h0)
      refine .inr ?_
      rw [hmsb]
      simp [hpos]
  · intro h
    rcases h with rfl | hmsb
    · simp
    · exact BitVec.sshiftRight_eq_of_msb_false hmsb

theorem setWidth_shamt (raw : BitVec 32) :
    ((shamt raw).setWidth 32).toNat = (shamt raw).toNat := by
  have hlt := (shamt raw).isLt
  rw [BitVec.toNat_setWidth, Nat.mod_eq_of_lt (by omega)]

theorem low_bits (s : BitVec 32) : (s &&& 0x1f).toNat = (s.extractLsb' 0 5).toNat := by
  have h := toNat_field (by decide : 5 ≤ 32) s 0
  rwa [BitVec.ushiftRight_zero] at h

/-- A shift of the host by one of the five-bit fields is defined. -/
theorem shift_set {amount : BitVec 32} {field : BitVec 5} (h : amount.toNat = field.toNat)
    (pcAfter : BitVec 32) (reg : Fin numTotalRegs) (f : Nat → BitVec 32) :
    (Action.shift amount fun n => .set pcAfter reg (f n)) = .set pcAfter reg (f field.toNat) := by
  have hlt := field.isLt
  rw [Action.shift, if_neg (by omega), h]

theorem immediate_low (raw : BitVec 32) :
    (imm raw).signExtend 32 &&& 0xffff = (imm raw).setWidth 32 := by
  apply BitVec.eq_of_getLsbD_eq
  intro i hi
  rw [show (0xffff : BitVec 32) = lowMask 32 16 by decide, BitVec.getLsbD_and, getLsbD_lowMask,
    BitVec.getLsbD_signExtend, BitVec.getLsbD_setWidth]
  by_cases hlow : i < 16
  · simp [hi, hlow]
  · simp [hlow, BitVec.getLsbD_of_ge (imm raw) i (by omega)]

theorem immediate_high (raw : BitVec 32) : (imm raw).signExtend 32 <<< 16 = imm raw ++ 0#16 := by
  apply BitVec.eq_of_getLsbD_eq
  intro i hi
  rw [BitVec.getLsbD_shiftLeft, BitVec.getLsbD_append, BitVec.getLsbD_signExtend]
  by_cases hlow : i < 16
  · simp [hlow]
  · simp [hi, hlow, show i - 16 < 32 by omega, show i - 16 < 16 by omega]

/-- The code of an operation assigns its register and goes on; the value is the
right one where the simulator agrees. -/
theorem execute_operation {raw : BitVec 32} {o : Operation} (h : operation raw = some o)
    (r : Registers) : ∃ v, (decode raw).execute r = .set (r nextPCReg + 4) (o.dest raw) v ∧
      (v = o.value raw r ↔ o.Agrees raw r) := by
  rw [decode_of_operation h]
  cases o
  case or => exact ⟨_, rfl, or_self_eq_or_iff _ _⟩
  case andi | ori | xori =>
    refine ⟨_, rfl, iff_of_true ?_ trivial⟩
    simp only [Operation.value, Operation.immediate, if_true, immediate_low]
  case lui => exact ⟨_, rfl, iff_of_true (immediate_high raw) trivial⟩
  case sll =>
    exact ⟨_, shift_set (setWidth_shamt raw) _ _ (r (rt raw) <<< ·), iff_of_true rfl trivial⟩
  case sllv => exact ⟨_, shift_set (low_bits _) _ _ (r (rt raw) <<< ·), iff_of_true rfl trivial⟩
  case sra =>
    exact ⟨_, shift_set (setWidth_shamt raw) _ _ (r (rt raw)).sshiftRight, iff_of_true rfl trivial⟩
  case srav =>
    exact ⟨_, shift_set (low_bits _) _ _ (r (rt raw)).sshiftRight, iff_of_true rfl trivial⟩
  case srl =>
    exact ⟨_, shift_set (setWidth_shamt raw) _ _ (r (rt raw)).sshiftRight,
      sshiftRight_eq_ushiftRight_iff _ _⟩
  case srlv =>
    exact ⟨_, shift_set (low_bits _) _ _ (r (rt raw)).sshiftRight,
      sshiftRight_eq_ushiftRight_iff _ _⟩
  case slt | slti =>
    refine ⟨_, rfl, iff_of_true ?_ trivial⟩
    simp only [Operation.value, Operation.immediate, if_true, boolWord, BitVec.slt_iff_toInt_lt]
  case addu | addiu | subu | and | xor | nor | sltu | sltiu =>
    exact ⟨_, rfl, iff_of_true rfl trivial⟩

end R2000

/-! ## The whole instruction -/

namespace Registers

/-- The general registers behind an instruction that sets one of them: the
pending load is applied last. -/
theorem finish_write (r : Registers) (reg x : GPReg) (value pcAfter : BitVec 32) :
    (r.write reg value).finish pcAfter 0 0 x =
      if x = 0 then 0 else if (r loadReg).toNat = x then r loadValueReg
      else if x = reg then value else r x := by
  have hne (y : Fin numTotalRegs) (hy : pcReg ≤ y) (z : GPReg) : (z : Fin numTotalRegs) ≠ y :=
    Fin.ne_of_lt (Fin.lt_of_lt_of_le z.lt_pcReg hy)
  have hkept (y : Fin numTotalRegs) (hy : pcReg ≤ y) : r.write reg value y = r y :=
    Function.update_of_ne (hne y hy reg).symm _ _
  rw [finish_of_lt x.lt_pcReg, delayedLoad_apply, hkept loadReg (by decide),
    hkept loadValueReg (by decide), if_neg (hne loadReg (by decide) x),
    if_neg (hne loadValueReg (by decide) x)]
  simp only [write, Function.update_apply, Fin.ext_iff]
  rfl

end Registers

theorem Machine.exec_set {r : Registers} (hload : r.LoadOk) (mem : Memory) (pcAfter : BitVec 32)
    (reg : GPReg) (value : BitVec 32) : (Machine.mk r mem).exec (.set pcAfter reg value) =
      .ok (.completed ⟨(r.write reg value).finish pcAfter 0 0, mem⟩) := by
  have hne : loadReg ≠ (reg : Fin numTotalRegs) :=
    (Fin.ne_of_lt (Fin.lt_of_lt_of_le reg.lt_pcReg (by decide))).symm
  have hkept : (r.write reg value).LoadOk := by
    rw [Registers.LoadOk, Registers.write, Function.update_of_ne hne]
    exact hload
  rw [Action.set, Machine.exec, Machine.exec, if_pos hkept]

open R2000 in
/-- With no load pending, the simulator follows the architecture in the
instructions that compute a register, for every word and all operands, exactly
if the result is thrown away or the operands are ones it agrees on: always, but
for `or` with a bit in its second operand that its first has not, and the
logical shifts to the right of a negative word. -/
theorem operation_follows_iff (m : Machine) {raw : BitVec 32} {mem : Memory} {o : Operation}
    (hload : m.registers loadReg = 0)
    (hfetch : m.memory.readMem (m.registers pcReg) .word = .ok (raw, mem))
    (hop : operation raw = some o) :
    (∃ m', m.oneInstruction = .ok (.completed m') ∧ o.Follows raw m.registers m'.registers) ↔
      o.dest raw = 0 ∨ o.Agrees raw m.registers := by
  obtain ⟨v, hexec, hv⟩ := execute_operation hop m.registers
  have hok : m.registers.LoadOk := by rw [Registers.LoadOk, hload]; decide
  rw [Machine.oneInstruction_of_fetch hfetch, hexec, Machine.exec_set hok, ← hv]
  have hregs (x : GPReg) (hx : x ≠ 0) :
      (m.registers.write (o.dest raw) v).finish (m.registers nextPCReg + 4) 0 0 x =
        if x = o.dest raw then v else m.registers x := by
    have hpending : (m.registers loadReg).toNat ≠ x := by
      rw [hload]
      exact fun h => hx (Fin.ext h.symm)
    rw [Registers.finish_write, if_neg hx, if_neg hpending]
  constructor
  · intro ⟨m', hm, hf⟩
    cases hm
    by_cases hd : o.dest raw = 0
    · exact .inl hd
    · refine .inr ?_
      rw [← hf.dest hd]
      exact ((hregs _ hd).trans (if_pos rfl)).symm
  · intro h
    refine ⟨_, rfl, ?_, ?_, ?_⟩
    · exact fun hd => (hregs _ hd).trans ((if_pos rfl).trans (h.resolve_left hd))
    · exact Registers.finish_zero (m.registers.write (o.dest raw) v) (m.registers nextPCReg + 4) 0 0
    · exact fun x hx hxd => (hregs x hx).trans (if_neg hxd)

/-- Registers with 1 in `r1`, 2 in `r2`, 3 in `r3` and the least integer in `r4`. -/
def Registers.operands : Registers :=
  (((Registers.write (fun _ => 0) 1 1).write 2 2).write 3 3).write 4 intMin

/-- `or r5, r3, r1`. -/
theorem operation_follows_sample :
    ∃ m', (Machine.mk .operands (.sample true [0x25, 0x28, 0x61, 0x00])).oneInstruction =
      .ok (.completed m') ∧ R2000.Operation.or.Follows 0x00612825 .operands m'.registers :=
  (operation_follows_iff _ rfl (rfl : Memory.readMem _ _ _ = .ok (0x00612825, _)) rfl).mpr
    (.inr rfl)

/-- `or r5, r1, r2` gives 1, not 3; `srl r5, r4, 1` and `srlv r5, r4, r1` shift
the sign of the least integer in. -/
theorem operation_departs :
    (∃ m', (Machine.mk .operands (.sample true [0x25, 0x28, 0x22, 0x00])).oneInstruction =
        .ok (.completed m') ∧ R2000.operation 0x00222825 = some .or ∧ m'.registers 5 = 1 ∧
      R2000.Operation.or.value 0x00222825 .operands = 3) ∧
    (∃ m', (Machine.mk .operands (.sample true [0x42, 0x28, 0x04, 0x00])).oneInstruction =
        .ok (.completed m') ∧ R2000.operation 0x00042842 = some .srl ∧
      m'.registers 5 = 0xc0000000 ∧ R2000.Operation.srl.value 0x00042842 .operands = 0x40000000) ∧
    ∃ m', (Machine.mk .operands (.sample true [0x06, 0x28, 0x24, 0x00])).oneInstruction =
        .ok (.completed m') ∧ R2000.operation 0x00242806 = some .srlv ∧
      m'.registers 5 = 0xc0000000 ∧ R2000.Operation.srlv.value 0x00242806 .operands = 0x40000000 :=
  ⟨⟨_, rfl, rfl, rfl, rfl⟩, ⟨_, rfl, rfl, rfl, rfl⟩, _, rfl, rfl, rfl, rfl⟩

/-! ## Arithmetic that traps -/

namespace R2000

inductive Trapping
  | add
  | addi
  | sub
  deriving DecidableEq, Repr

def trapping (raw : BitVec 32) : Option Trapping :=
  match (op raw).toNat with
  | 0x00 =>
    match (funct raw).toNat with
    | 0x20 => some .add
    | 0x22 => some .sub
    | _ => none
  | 0x08 => some .addi
  | _ => none

namespace Trapping

def immediate : Trapping → Bool
  | .addi => true
  | .add | .sub => false

def dest (o : Trapping) (raw : BitVec 32) : GPReg := if o.immediate then rt raw else rd raw

def opCode : Trapping → OpCode
  | .add => .add
  | .addi => .addi
  | .sub => .sub

/-- The sum or difference of the operands as signed integers. -/
def exact (o : Trapping) (raw : BitVec 32) (r : Registers) : Int :=
  match o with
  | .add => (r (rs raw)).toInt + (r (rt raw)).toInt
  | .addi => (r (rs raw)).toInt + (imm raw).toInt
  | .sub => (r (rs raw)).toInt - (r (rt raw)).toInt

end Trapping

open Instruction

theorem decode_of_trapping {raw : BitVec 32} {o : Trapping} (h : trapping raw = some o) :
    decode raw = ⟨o.opCode, rs raw, rt raw, rd raw,
      if o.immediate then (imm raw).signExtend 32 else (shamt raw).setWidth 32⟩ := by
  unfold trapping at h
  split at h
  · rename_i hop
    rw [decode_special hop]
    split at h
    · rename_i hfunct
      cases h
      rw [hfunct]
      rfl
    · rename_i hfunct
      cases h
      rw [hfunct]
      rfl
    · cases h
  · rename_i hop
    cases h
    rw [decode_eq, hop]
    exact congrArg _ (decodeExtra_ifmt raw)
  · cases h

theorem xor_signBit (x y : BitVec 32) : (x ^^^ y) &&& signBit ≠ 0 ↔ x.msb ≠ y.msb := by
  rw [and_signBit_ne_zero, BitVec.msb_xor]
  cases x.msb <;> cases y.msb <;> decide

theorem saddOverflow_iff (x y : BitVec 32) :
    x.saddOverflow y = true ↔ ¬ IsInt (x.toInt + y.toInt) := by
  simp only [BitVec.saddOverflow, IsInt]
  simp
  omega

theorem ssubOverflow_iff (x y : BitVec 32) :
    x.ssubOverflow y = true ↔ ¬ IsInt (x.toInt - y.toInt) := by
  simp only [BitVec.ssubOverflow, IsInt]
  simp
  omega

/-- Operands of one sign, and a sum of the other. -/
theorem add_overflows_iff (x y : BitVec 32) :
    (x ^^^ y) &&& signBit = 0 ∧ (x ^^^ (x + y)) &&& signBit ≠ 0 ↔
      ¬ IsInt (x.toInt + y.toInt) := by
  rw [← saddOverflow_iff, BitVec.saddOverflow_eq, xor_signBit, ← not_ne_iff, xor_signBit]
  cases x.msb <;> cases y.msb <;> cases (x + y).msb <;> decide

/-- Operands of different signs, and a difference of the second one's. -/
theorem sub_overflows_iff (x y : BitVec 32) :
    (x ^^^ y) &&& signBit ≠ 0 ∧ (x ^^^ (x - y)) &&& signBit ≠ 0 ↔
      ¬ IsInt (x.toInt - y.toInt) := by
  rw [← ssubOverflow_iff, BitVec.ssubOverflow_eq, xor_signBit, xor_signBit]
  cases x.msb <;> cases y.msb <;> cases (x - y).msb <;> decide

theorem execute_trapping {raw : BitVec 32} {o : Trapping} (h : trapping raw = some o)
    (r : Registers) : (decode raw).execute r =
      if ¬ IsInt (o.exact raw r) then .raise .overflow 0
      else .set (r nextPCReg + 4) (o.dest raw) (BitVec.ofInt 32 (o.exact raw r)) := by
  rw [decode_of_trapping h]
  cases o with
  | add =>
    have hvalue : r (rs raw) + r (rt raw) = BitVec.ofInt 32 (Trapping.add.exact raw r) := by
      simp [Trapping.exact, BitVec.ofInt_add]
    rw [← hvalue]
    exact if_congr (add_overflows_iff _ _) rfl rfl
  | addi =>
    have hext : ((imm raw).signExtend 32).toInt = (imm raw).toInt :=
      BitVec.toInt_signExtend_of_le (by decide)
    have hvalue : r (rs raw) + (imm raw).signExtend 32 =
        BitVec.ofInt 32 (Trapping.addi.exact raw r) := by
      simp [Trapping.exact, BitVec.ofInt_add, ← hext]
    -- here the sum's sign is compared with the immediate's
    have hsum := add_overflows_iff ((imm raw).signExtend 32) (r (rs raw))
    rw [BitVec.xor_comm, BitVec.add_comm, Int.add_comm, hext] at hsum
    rw [← hvalue]
    exact if_congr hsum rfl rfl
  | sub =>
    have hvalue : r (rs raw) - r (rt raw) = BitVec.ofInt 32 (Trapping.sub.exact raw r) := by
      simp [Trapping.exact, Int.sub_eq_add_neg, BitVec.ofInt_add, BitVec.ofInt_neg,
        BitVec.sub_eq_add_neg]
    rw [← hvalue]
    exact if_congr (sub_overflows_iff _ _) rfl rfl

end R2000

/-- A register that an exception is to leave alone: a general one, or one of the
two program counters. -/
def Registers.Architectural (x : Fin numTotalRegs) : Prop :=
  x.val < numGPRegs ∨ x = pcReg ∨ x = nextPCReg

theorem Registers.Architectural.ne {x : Fin numTotalRegs} (h : Registers.Architectural x) :
    x ≠ loadReg ∧ x ≠ loadValueReg ∧ x ≠ badVAddrReg := by
  rcases h with h | rfl | rfl
  · refine ⟨?_, ?_, ?_⟩ <;> rintro rfl <;> exact absurd h (by decide)
  · decide
  · decide

open R2000 in
/-- The instructions with an overflow trap, for every word and all operands.
They raise the exception just when the sum or difference is no 32-bit integer;
the exception then leaves the program counters and all general registers but
the target of a pending load as they were. Otherwise the instruction completes
with the sum or difference in its register, unless that is register 0, or a
load is pending for it, which is applied behind the assignment. -/
theorem trapping_exact (m : Machine) {raw : BitVec 32} {mem : Memory} {o : Trapping}
    (hload : m.registers.LoadOk)
    (hfetch : m.memory.readMem (m.registers pcReg) .word = .ok (raw, mem))
    (hop : trapping raw = some o) :
    ((∃ m', m.oneInstruction = .ok (.raised .overflow m')) ↔
      ¬ IsInt (o.exact raw m.registers)) ∧
    (∀ m', m.oneInstruction = .ok (.raised .overflow m') → m'.registers 0 = 0 ∧
      ∀ x, Registers.Architectural x → x ≠ 0 → (m.registers loadReg).toNat ≠ x →
        m'.registers x = m.registers x) ∧
    (IsInt (o.exact raw m.registers) → ∃ m', m.oneInstruction = .ok (.completed m') ∧
      (m'.registers (o.dest raw)).toInt =
        if o.dest raw = 0 then 0
        else if (m.registers loadReg).toNat = o.dest raw then (m.registers loadValueReg).toInt
        else o.exact raw m.registers) := by
  have hexec := execute_trapping hop m.registers
  rw [Machine.oneInstruction_of_fetch hfetch, hexec]
  by_cases hfits : IsInt (o.exact raw m.registers)
  · rw [if_neg (not_not.mpr hfits), Machine.exec_set hload]
    refine ⟨⟨fun ⟨m', h⟩ => (nomatch h), fun h => absurd hfits h⟩, nofun, fun _ => ⟨_, rfl, ?_⟩⟩
    dsimp only
    rw [Registers.finish_write]
    split
    · rfl
    · split
      · rfl
      · rw [if_pos rfl, BitVec.toInt_ofInt]
        apply Int.bmod_eq_of_le <;> have := hfits.1 <;> have := hfits.2 <;> omega
  · rw [if_pos hfits, Machine.exec, Machine.raiseException, if_pos hload]
    refine ⟨⟨fun _ => hfits, fun _ => ⟨_, rfl⟩⟩, fun m' h => ?_, fun h => absurd h hfits⟩
    cases h
    refine ⟨Registers.raise_zero m.registers 0, fun x hx hx0 hpending => ?_⟩
    obtain ⟨hr, hv, hb⟩ := hx.ne
    exact (Registers.raise_apply _ hx0 hr hv hb _).trans (if_neg hpending)

/-- `add r5, r1, r2`, and `add r5, r4, r4`, which overflows. -/
theorem trapping_exact_sample :
    (∃ m', (Machine.mk .operands (.sample true [0x20, 0x28, 0x22, 0x00])).oneInstruction =
      .ok (.completed m') ∧ (m'.registers 5).toInt = 3) ∧
    ∃ m', (Machine.mk .operands (.sample true [0x20, 0x28, 0x84, 0x00])).oneInstruction =
      .ok (.raised .overflow m') :=
  ⟨(trapping_exact _ (by decide) (rfl : Memory.readMem _ _ _ = .ok (0x00222820, _)) rfl).2.2
      (by decide),
    (trapping_exact _ (by decide) (rfl : Memory.readMem _ _ _ = .ok (0x00842820, _)) rfl).1.mpr
      (by decide)⟩

/-- The sum does not reach its register if a load is pending for it, or if it is
register 0: `add r5, r1, r2` with a load of 9 pending for `r5`, and
`add r0, r1, r2`. -/
theorem trapping_lost :
    (∃ m', (Machine.mk ((Registers.operands.write loadReg 5).write loadValueReg 9)
        (.sample true [0x20, 0x28, 0x22, 0x00])).oneInstruction = .ok (.completed m') ∧
      R2000.Trapping.add.exact 0x00222820 .operands = 3 ∧ (m'.registers 5).toInt = 9) ∧
    ∃ m', (Machine.mk .operands (.sample true [0x20, 0x00, 0x22, 0x00])).oneInstruction =
        .ok (.completed m') ∧
      R2000.Trapping.add.exact 0x00220020 .operands = 3 ∧ (m'.registers 0).toInt = 0 :=
  ⟨⟨_, rfl, rfl, rfl⟩, _, rfl, rfl, rfl⟩

end Nachos

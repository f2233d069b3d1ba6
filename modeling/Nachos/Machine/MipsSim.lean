import Nachos.Lib.Bits
import Nachos.Machine.Translate

/-! The MIPS simulator (mipssim.h, mipssim.cc): decoding, the `switch` of
`Machine::OneInstruction`, and its delayed loads. The code of an instruction is
given as the sequence of what it does, `Action`: it assigns registers, accesses
memory, raises an exception, or comes to the end of the `switch`. That keeps
what an instruction computes apart from what the memory answers, which is the
page table's business. Signed addition, subtraction, negation and left shift
wrap; the other undefined operations of the host language are faults. -/

namespace Nachos
open Lib

abbrev numGPRegs : Nat := 32

abbrev hiReg : Fin numTotalRegs := 32
abbrev loReg : Fin numTotalRegs := 33
abbrev r31 : Fin numTotalRegs := 31

/-- A register number out of an instruction. -/
abbrev GPReg := Fin numGPRegs

instance : Coe GPReg (Fin numTotalRegs) := ⟨Fin.castLE (by decide)⟩

/-! ## Decoding -/

/-- The opcodes of mipssim.h, `special` and `bcond` being marks in `opTable`
that ask for further decoding. -/
inductive OpCode
  | add | addi | addiu | addu | and | andi | beq | bgez | bgezal | bgtz | blez | bltz | bltzal | bne
  | div | divu | j | jal | jalr | jr | lb | lbu | lh | lhu | lui | lw | lwl | lwr
  | mfhi | mflo | mthi | mtlo | mult | multu | nor | or | ori | rfe | sb | sh | sll | sllv
  | slt | slti | sltiu | sltu | sra | srav | srl | srlv | sub | subu | sw | swl | swr | xor | xori
  | syscall | unimp | res | special | bcond
  deriving DecidableEq, Repr

inductive Format
  | ifmt
  | jfmt
  | rfmt
  deriving DecidableEq, Repr

/-- Indexed by bits 31:26 of the instruction. -/
def opTable : List (OpCode × Format) := [
  (.special, .rfmt), (.bcond, .ifmt), (.j, .jfmt), (.jal, .jfmt),
  (.beq, .ifmt), (.bne, .ifmt), (.blez, .ifmt), (.bgtz, .ifmt),
  (.addi, .ifmt), (.addiu, .ifmt), (.slti, .ifmt), (.sltiu, .ifmt),
  (.andi, .ifmt), (.ori, .ifmt), (.xori, .ifmt), (.lui, .ifmt),
  (.unimp, .ifmt), (.unimp, .ifmt), (.unimp, .ifmt), (.unimp, .ifmt),
  (.res, .ifmt), (.res, .ifmt), (.res, .ifmt), (.res, .ifmt),
  (.res, .ifmt), (.res, .ifmt), (.res, .ifmt), (.res, .ifmt),
  (.res, .ifmt), (.res, .ifmt), (.res, .ifmt), (.res, .ifmt),
  (.lb, .ifmt), (.lh, .ifmt), (.lwl, .ifmt), (.lw, .ifmt),
  (.lbu, .ifmt), (.lhu, .ifmt), (.lwr, .ifmt), (.res, .ifmt),
  (.sb, .ifmt), (.sh, .ifmt), (.swl, .ifmt), (.sw, .ifmt),
  (.res, .ifmt), (.res, .ifmt), (.swr, .ifmt), (.res, .ifmt),
  (.unimp, .ifmt), (.unimp, .ifmt), (.unimp, .ifmt), (.unimp, .ifmt),
  (.res, .ifmt), (.res, .ifmt), (.res, .ifmt), (.res, .ifmt),
  (.unimp, .ifmt), (.unimp, .ifmt), (.unimp, .ifmt), (.unimp, .ifmt),
  (.res, .ifmt), (.res, .ifmt), (.res, .ifmt), (.res, .ifmt)]

/-- Indexed by the "funct" field of a `special` instruction. -/
def specialTable : List OpCode := [
  .sll, .res, .srl, .sra, .sllv, .res, .srlv, .srav,
  .jr, .jalr, .res, .res, .syscall, .unimp, .res, .res,
  .mfhi, .mthi, .mflo, .mtlo, .res, .res, .res, .res,
  .mult, .multu, .div, .divu, .res, .res, .res, .res,
  .add, .addu, .sub, .subu, .and, .or, .xor, .nor,
  .res, .res, .slt, .sltu, .res, .res, .res, .res,
  .res, .res, .res, .res, .res, .res, .res, .res,
  .res, .res, .res, .res, .res, .res, .res, .res]

structure Instruction where
  opCode : OpCode
  rs : GPReg
  rt : GPReg
  rd : GPReg
  extra : BitVec 32
  deriving DecidableEq, Repr

namespace Instruction

/-- `(value >> shift) & 0x1f` as a register number. -/
def regField (value : BitVec 32) (shift : Nat) : GPReg :=
  ⟨(value >>> shift &&& 0x1f).toNat, by
    rw [BitVec.toNat_and]
    exact Nat.lt_of_le_of_lt Nat.and_le_right (by decide)⟩

/-- The second opcode field of the branches that compare with zero. -/
def bcondOp (i : BitVec 32) : OpCode :=
  if i = 0 then .bltz
  else if i = 0x10000 then .bgez
  else if i = 0x100000 then .bltzal
  else if i = 0x110000 then .bgezal
  else .unimp

def decodeOp (value : BitVec 32) : OpCode → OpCode
  | .special => specialTable.getD (value &&& 0x3f).toNat .res
  | .bcond => bcondOp (value &&& 0x1f0000)
  | op => op

def decodeExtra (value : BitVec 32) : Format → BitVec 32
  | .ifmt =>
    let extra := value &&& 0xffff
    if extra &&& 0x8000 ≠ 0 then extra ||| 0xffff0000 else extra
  | .rfmt => value >>> 6 &&& 0x1f
  | .jfmt => value &&& 0x3ffffff

/-- `Instruction::Decode`. Both tables have 64 entries, one for each index. -/
def decode (value : BitVec 32) : Instruction :=
  let op := opTable.getD (value >>> 26 &&& 0x3f).toNat (.res, .ifmt)
  { opCode := decodeOp value op.1
    rs := regField value 21
    rt := regField value 16
    rd := regField value 11
    extra := decodeExtra value op.2 }

end Instruction

/-! ## What an instruction does -/

/-- The code of an instruction between its fetch and `DelayedLoad`. -/
inductive Action
  /-- The end of the `switch`: what `pcAfter`, `nextLoadReg` and `nextLoadValue`
  have become. -/
  | done (pcAfter nextLoadReg nextLoadValue : BitVec 32)
  | assign (reg : Fin numTotalRegs) (value : BitVec 32) (rest : Action)
  | readMem (addr : BitVec 32) (width : Width) (rest : BitVec 32 → Action)
  | writeMem (addr : BitVec 32) (width : Width) (value : BitVec 32) (rest : Action)
  | raise (which : ExceptionType) (badVAddr : BitVec 32)
  | fail (fault : Fault)

namespace Action

/-- `registers[reg] = value; break;`. -/
def set (pcAfter : BitVec 32) (reg : Fin numTotalRegs) (value : BitVec 32) : Action :=
  .assign reg value (.done pcAfter 0 0)

/-- The results of a division or multiplication. -/
def setHiLo (pcAfter hi lo : BitVec 32) : Action :=
  .assign loReg lo (.assign hiReg hi (.done pcAfter 0 0))

/-- `break;` with nothing to load. -/
def jump (pcAfter : BitVec 32) : Action := .done pcAfter 0 0

/-- `nextLoadReg = reg; nextLoadValue = value; break;`. -/
def load (pcAfter : BitVec 32) (reg : GPReg) (value : BitVec 32) : Action :=
  .done pcAfter (BitVec.ofNat 32 reg) value

/-- An overflow check in front of the assignment. -/
def setUnless (overflow : Prop) [Decidable overflow] (pcAfter : BitVec 32)
    (reg : Fin numTotalRegs) (value : BitVec 32) : Action :=
  if overflow then .raise .overflow 0 else set pcAfter reg value

/-- A shift of the host, by the bits of `amount`. -/
def shift (amount : BitVec 32) (rest : Nat → Action) : Action :=
  if 32 ≤ amount.toNat then .fail .undefined else rest amount.toNat

/-- The alignment check of the loads of more than a byte. -/
def aligned (mask tmp : BitVec 32) (rest : Action) : Action :=
  if tmp &&& mask ≠ 0 then .raise .addressError tmp else rest

/-- `ASSERT((tmp & 0x3) == 0)` of the partial-word loads and stores. -/
def assertWord (tmp : BitVec 32) (rest : Action) : Action :=
  if tmp &&& 0x3 = 0 then rest else .fail (.assertion .partialWord)

end Action

def signBit : BitVec 32 := 0x80000000
def intMin : BitVec 32 := 0x80000000

theorem and_signBit_ne_zero (x : BitVec 32) : x &&& signBit ≠ 0 ↔ x.msb = true := by
  rw [BitVec.msb_eq_getLsbD_last]
  exact and_twoPow_ne_zero x 31

def indexToAddr (x : BitVec 32) : BitVec 32 := x <<< 2

/-- The loop of `Mult`, with the rounds left: `a`'s bits are checked one at a
time, from the low end, and a shifted value of `b` is added in. -/
def multLoop : Nat → BitVec 32 → BitVec 32 → BitVec 32 → BitVec 32 → BitVec 32 →
    BitVec 32 × BitVec 32
  | 0, _, _, _, hi, lo => (hi, lo)
  | n + 1, a, bHi, bLo, hi, lo =>
    let bHi' := (bHi <<< 1) ||| (if bLo &&& 0x80000000 ≠ 0 then 1 else 0)
    if a &&& 1 ≠ 0 then
      let lo' := lo + bLo
      -- carry out of the low bits?
      let hi' := (if lo' < bLo then hi + 1 else hi) + bHi
      if a &&& 0xfffffffe = 0 then (hi', lo')
      else multLoop n (a.sshiftRight 1) bHi' (bLo <<< 1) hi' lo'
    else multLoop n (a.sshiftRight 1) bHi' (bLo <<< 1) hi lo

/-- The two's complement of a double word. -/
def negateDouble (hi lo : BitVec 32) : BitVec 32 × BitVec 32 :=
  let lo' := ~~~lo + 1
  (if lo' = 0 then ~~~hi + 1 else ~~~hi, lo')

/-- `Mult`, with what it leaves in `*hiPtr` and `*loPtr`. -/
def mult (a b : BitVec 32) (signedArith : Bool) : BitVec 32 × BitVec 32 :=
  if a = 0 ∨ b = 0 then (0, 0)
  else
    let negA := signedArith && a.slt 0
    let negB := signedArith && b.slt 0
    let (hi, lo) := multLoop 32 (if negA then -a else a) 0 (if negB then -b else b) 0 0
    if negA != negB then negateDouble hi lo else (hi, lo)

/-! ### Partial words

The inner switches of the four unaligned instructions, for all four values of
`tmp & 0x3`; `word` is the word in memory, `old` the register. -/

def lwlMerge (tmp old word : BitVec 32) : BitVec 32 :=
  if tmp &&& 0x3 = 0 then word
  else if tmp &&& 0x3 = 1 then old &&& 0xff ||| word <<< 8
  else if tmp &&& 0x3 = 2 then old &&& 0xffff ||| word <<< 16
  else old &&& 0xffffff ||| word <<< 24

def lwrMerge (tmp old word : BitVec 32) : BitVec 32 :=
  if tmp &&& 0x3 = 0 then old &&& 0xffffff00 ||| word.sshiftRight 24 &&& 0xff
  else if tmp &&& 0x3 = 1 then old &&& 0xffff0000 ||| word.sshiftRight 16 &&& 0xffff
  else if tmp &&& 0x3 = 2 then old &&& 0xff000000 ||| word.sshiftRight 8 &&& 0xffffff
  else word

def swlMerge (tmp old word : BitVec 32) : BitVec 32 :=
  if tmp &&& 0x3 = 0 then old
  else if tmp &&& 0x3 = 1 then word &&& 0xff000000 ||| old.sshiftRight 8 &&& 0xffffff
  else if tmp &&& 0x3 = 2 then word &&& 0xffff0000 ||| old.sshiftRight 16 &&& 0xffff
  else word &&& 0xffffff00 ||| old.sshiftRight 24 &&& 0xff

def swrMerge (tmp old word : BitVec 32) : BitVec 32 :=
  if tmp &&& 0x3 = 0 then word &&& 0xffffff ||| old <<< 24
  else if tmp &&& 0x3 = 1 then word &&& 0xffff ||| old <<< 16
  else if tmp &&& 0x3 = 2 then word &&& 0xff ||| old <<< 8
  else old

/-- The register as the partial-word loads see it: a load still pending for it
counts. -/
def Registers.merged (r : Registers) (reg : GPReg) : BitVec 32 :=
  if r loadReg = BitVec.ofNat 32 reg then r loadValueReg else r reg

/-- What a byte or half word read by `ReadMem` becomes in the register. -/
def extendByte (signed : Bool) (value : BitVec 32) : BitVec 32 :=
  if value &&& 0x80 ≠ 0 ∧ signed then value ||| 0xffffff00 else value &&& 0xff
def extendHalf (signed : Bool) (value : BitVec 32) : BitVec 32 :=
  if value &&& 0x8000 ≠ 0 ∧ signed then value ||| 0xffff0000 else value &&& 0xffff

def boolWord (b : Prop) [Decidable b] : BitVec 32 := if b then 1 else 0

open Nachos.Action in
/-- The `switch` of `Machine::OneInstruction`. -/
def Instruction.execute (i : Instruction) (r : Registers) : Action :=
  let next := r nextPCReg
  let pcAfter := next + 4
  let rs := r i.rs
  let rt := r i.rt
  let tmp := rs + i.extra
  let target := next + indexToAddr i.extra
  -- the registers behind the assignment of a linking branch
  let linked (reg : Fin numTotalRegs) := r.write reg (next + 4)
  match i.opCode with
  | .add => setUnless ((rs ^^^ rt) &&& signBit = 0 ∧ (rs ^^^ (rs + rt)) &&& signBit ≠ 0)
      pcAfter i.rd (rs + rt)
  | .addi => setUnless ((rs ^^^ i.extra) &&& signBit = 0 ∧ (i.extra ^^^ tmp) &&& signBit ≠ 0)
      pcAfter i.rt tmp
  | .addiu => set pcAfter i.rt (rs + i.extra)
  | .addu => set pcAfter i.rd (rs + rt)
  | .and => set pcAfter i.rd (rs &&& rt)
  | .andi => set pcAfter i.rt (rs &&& (i.extra &&& 0xffff))
  | .beq => jump (if rs = rt then target else pcAfter)
  | .bgezal => .assign r31 (next + 4)
      (jump (if linked r31 i.rs &&& signBit = 0 then target else pcAfter))
  | .bgez => jump (if rs &&& signBit = 0 then target else pcAfter)
  | .bgtz => jump (if BitVec.slt 0 rs then target else pcAfter)
  | .blez => jump (if rs.sle 0 then target else pcAfter)
  | .bltzal => .assign r31 (next + 4)
      (jump (if linked r31 i.rs &&& signBit ≠ 0 then target else pcAfter))
  | .bltz => jump (if rs &&& signBit ≠ 0 then target else pcAfter)
  | .bne => jump (if rs ≠ rt then target else pcAfter)
  | .div =>
    if rt = 0 then setHiLo pcAfter 0 0
    else if rs = intMin ∧ rt = -1 then .fail .undefined
    else setHiLo pcAfter (rs.srem rt) (rs.sdiv rt)
  | .divu => if rt = 0 then setHiLo pcAfter 0 0 else setHiLo pcAfter (rs % rt) (rs / rt)
  | .jal => .assign r31 (next + 4) (jump (pcAfter &&& 0xf0000000 ||| indexToAddr i.extra))
  | .j => jump (pcAfter &&& 0xf0000000 ||| indexToAddr i.extra)
  | .jalr => .assign i.rd (next + 4) (jump (linked i.rd i.rs))
  | .jr => jump rs
  | .lb => .readMem tmp .byte fun value => load pcAfter i.rt (extendByte true value)
  | .lbu => .readMem tmp .byte fun value => load pcAfter i.rt (extendByte false value)
  | .lh =>
    aligned 0x1 tmp (.readMem tmp .half fun value => load pcAfter i.rt (extendHalf true value))
  | .lhu =>
    aligned 0x1 tmp (.readMem tmp .half fun value => load pcAfter i.rt (extendHalf false value))
  | .lui => set pcAfter i.rt (i.extra <<< 16)
  | .lw => aligned 0x3 tmp (.readMem tmp .word fun value => load pcAfter i.rt value)
  | .lwl => assertWord tmp (.readMem tmp .word fun value =>
      load pcAfter i.rt (lwlMerge tmp (r.merged i.rt) value))
  | .lwr => assertWord tmp (.readMem tmp .word fun value =>
      load pcAfter i.rt (lwrMerge tmp (r.merged i.rt) value))
  | .mfhi => set pcAfter i.rd (r hiReg)
  | .mflo => set pcAfter i.rd (r loReg)
  | .mthi => set pcAfter hiReg rs
  | .mtlo => set pcAfter loReg rs
  | .mult => setHiLo pcAfter (mult rs rt true).1 (mult rs rt true).2
  | .multu => setHiLo pcAfter (mult rs rt false).1 (mult rs rt false).2
  | .nor => set pcAfter i.rd (~~~(rs ||| rt))
  | .or => set pcAfter i.rd (rs ||| rs)
  | .ori => set pcAfter i.rt (rs ||| (i.extra &&& 0xffff))
  | .sb => .writeMem tmp .byte rt (jump pcAfter)
  | .sh => .writeMem tmp .half rt (jump pcAfter)
  | .sll => shift i.extra fun n => set pcAfter i.rd (rt <<< n)
  | .sllv => shift (rs &&& 0x1f) fun n => set pcAfter i.rd (rt <<< n)
  | .slt => set pcAfter i.rd (boolWord (rs.slt rt))
  | .slti => set pcAfter i.rt (boolWord (rs.slt i.extra))
  | .sltiu => set pcAfter i.rt (boolWord (rs < i.extra))
  | .sltu => set pcAfter i.rd (boolWord (rs < rt))
  | .sra => shift i.extra fun n => set pcAfter i.rd (rt.sshiftRight n)
  | .srav => shift (rs &&& 0x1f) fun n => set pcAfter i.rd (rt.sshiftRight n)
  -- `tmp` is an `int`, so the two logical shifts are arithmetic ones as well
  | .srl => shift i.extra fun n => set pcAfter i.rd (rt.sshiftRight n)
  | .srlv => shift (rs &&& 0x1f) fun n => set pcAfter i.rd (rt.sshiftRight n)
  | .sub => setUnless ((rs ^^^ rt) &&& signBit ≠ 0 ∧ (rs ^^^ (rs - rt)) &&& signBit ≠ 0)
      pcAfter i.rd (rs - rt)
  | .subu => set pcAfter i.rd (rs - rt)
  | .sw => .writeMem tmp .word rt (jump pcAfter)
  | .swl => assertWord tmp (.readMem (tmp &&& ~~~0x3) .word fun value =>
      .writeMem (tmp &&& ~~~0x3) .word (swlMerge tmp rt value) (jump pcAfter))
  | .swr => assertWord tmp (.readMem (tmp &&& ~~~0x3) .word fun value =>
      .writeMem (tmp &&& ~~~0x3) .word (swrMerge tmp rt value) (jump pcAfter))
  | .syscall => .raise .syscall 0
  | .xor => set pcAfter i.rd (rs ^^^ rt)
  | .xori => set pcAfter i.rt (rs ^^^ (i.extra &&& 0xffff))
  | .res | .unimp => .raise .illegalInstr 0
  | .rfe | .special | .bcond => .fail (.assertion .opCode)

/-! ## Memory -/

/-- What the machine's memory accesses go through. -/
structure Memory where
  mainMemory : Nat → UInt8
  pageTable : Nat → TranslationEntry
  pageTableSize : Nat

/-- The value `ReadMem` finds at a physical address; a byte is a signed `char`. -/
def valueAt (mem : Nat → UInt8) (physAddr : Nat) : Width → BitVec 32
  | .byte => (mem physAddr).toBitVec.signExtend 32
  | .half => ((mem (physAddr + 1)).toBitVec ++ (mem physAddr).toBitVec).setWidth 32
  | .word => (mem (physAddr + 3)).toBitVec ++ (mem (physAddr + 2)).toBitVec ++
      (mem (physAddr + 1)).toBitVec ++ (mem physAddr).toBitVec

/-- The bytes `WriteMem` stores for `value`. -/
def valueBytes (width : Width) (value : BitVec 32) : List UInt8 :=
  (List.range width.size).map fun i => (value >>> (8 * i)).toNat.toUInt8

namespace Memory

def translate (mem : Memory) (addr : BitVec 32) (width : Width) (writing : Bool) : Translation :=
  Nachos.translate mem.pageTable mem.pageTableSize addr width writing

def setEntry (mem : Memory) (addr : BitVec 32) (entry : TranslationEntry) : Memory :=
  { mem with pageTable := Function.update mem.pageTable (vpnOf addr) entry }

/-- `Machine::ReadMem`, without the `RaiseException` in it. -/
def readMem (mem : Memory) (addr : BitVec 32) (width : Width) :
    Except ExceptionType (BitVec 32 × Memory) :=
  match mem.translate addr width false with
  | .exception which => .error which
  | .mapped physAddr entry =>
    .ok (valueAt mem.mainMemory physAddr width, mem.setEntry addr entry)

/-- `Machine::WriteMem`, without the `RaiseException` in it. -/
def writeMem (mem : Memory) (addr : BitVec 32) (width : Width) (value : BitVec 32) :
    Except ExceptionType Memory :=
  match mem.translate addr width true with
  | .exception which => .error which
  | .mapped physAddr entry =>
    .ok { mem.setEntry addr entry with
      mainMemory := overlay mem.mainMemory physAddr (valueBytes width value) }

end Memory

/-! ## The machine -/

structure Machine where
  registers : Registers
  memory : Memory

/-- How `OneInstruction` returns: behind the instruction, or behind
`RaiseException`, in the state the handler is entered in. -/
inductive Outcome
  | completed (m : Machine)
  | raised (which : ExceptionType) (m : Machine)

namespace Registers

/-- The pending load has a target in the register file. -/
def LoadOk (r : Registers) : Prop := (r loadReg).toNat < numTotalRegs

instance (r : Registers) : Decidable r.LoadOk := inferInstanceAs (Decidable (_ < _))

/-- The end of `OneInstruction`: apply the pending load and advance the
program counters. -/
def finish (r : Registers) (pcAfter nextLoadReg nextLoadValue : BitVec 32) : Registers :=
  let r := r.delayedLoad nextLoadReg nextLoadValue
  let r := r.write prevPCReg (r pcReg)
  let r := r.write pcReg (r nextPCReg)
  r.write nextPCReg pcAfter

/-- Away from the program counters, the end of an instruction is its delayed
load. -/
theorem finish_of_lt {r : Registers} {x : Fin numTotalRegs} (hx : x < pcReg)
    (pcAfter nextLoadReg nextLoadValue : BitVec 32) :
    r.finish pcAfter nextLoadReg nextLoadValue x = r.delayedLoad nextLoadReg nextLoadValue x := by
  have hne (y : Fin numTotalRegs) (hy : pcReg ≤ y) : x ≠ y :=
    Fin.ne_of_lt (Fin.lt_of_lt_of_le hx hy)
  unfold finish write
  rw [Function.update_of_ne (hne nextPCReg (by decide)),
    Function.update_of_ne (hne pcReg (by decide)),
    Function.update_of_ne (hne prevPCReg (by decide))]

theorem finish_zero (r : Registers) (pcAfter nextLoadReg nextLoadValue : BitVec 32) :
    r.finish pcAfter nextLoadReg nextLoadValue 0 = 0 := by
  rw [finish_of_lt (by decide), delayedLoad_apply, if_pos rfl]

end Registers

namespace Machine

/-- `Machine::RaiseException` up to the handler. -/
def raiseException (m : Machine) (which : ExceptionType) (badVAddr : BitVec 32) :
    Except Fault Outcome :=
  if m.registers.LoadOk then
    .ok (.raised which { m with registers := m.registers.raise badVAddr })
  else .error .undefined

/-- Carry out what is left of an instruction. -/
def exec (m : Machine) : Action → Except Fault Outcome
  | .done pcAfter nextLoadReg nextLoadValue =>
    if m.registers.LoadOk then
      .ok (.completed { m with
        registers := m.registers.finish pcAfter nextLoadReg nextLoadValue })
    else .error .undefined
  | .assign reg value rest => { m with registers := m.registers.write reg value }.exec rest
  | .readMem addr width rest =>
    match m.memory.readMem addr width with
    | .error which => m.raiseException which addr
    | .ok (value, mem) => { m with memory := mem }.exec (rest value)
  | .writeMem addr width value rest =>
    match m.memory.writeMem addr width value with
    | .error which => m.raiseException which addr
    | .ok mem => { m with memory := mem }.exec rest
  | .raise which badVAddr => m.raiseException which badVAddr
  | .fail fault => .error fault

/-- `Machine::OneInstruction`: fetch, decode, execute. -/
def oneInstruction (m : Machine) : Except Fault Outcome :=
  m.exec (.readMem (m.registers pcReg) .word fun raw =>
    (Instruction.decode raw).execute m.registers)

theorem raiseException_eq_ok {m : Machine} {which : ExceptionType} {badVAddr : BitVec 32}
    {o : Outcome} (h : m.raiseException which badVAddr = .ok o) :
    ∃ r, o = .raised which { m with registers := r } := by
  unfold raiseException at h
  split at h
  · cases h; exact ⟨_, rfl⟩
  · cases h

theorem oneInstruction_of_fetch {m : Machine} {raw : BitVec 32} {mem : Memory}
    (h : m.memory.readMem (m.registers pcReg) .word = .ok (raw, mem)) :
    m.oneInstruction =
      { m with memory := mem }.exec ((Instruction.decode raw).execute m.registers) := by
  simp only [oneInstruction, exec, h]

theorem oneInstruction_of_not_fetch {m : Machine} {which : ExceptionType}
    (h : m.memory.readMem (m.registers pcReg) .word = .error which) :
    m.oneInstruction = m.raiseException which (m.registers pcReg) := by
  simp only [oneInstruction, exec, h]

end Machine
end Nachos

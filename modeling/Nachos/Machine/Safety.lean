import Nachos.Machine.Footprint
import Nachos.Machine.VirtualMemory

/-! Which instructions bring the simulator down. Whatever the word, decoding
ends in an opcode that `OneInstruction` has a case for, and a shift never goes
past the word. What is left are the two ways a program can still reach a
failing assertion or an undefined division: a partial-word load or store that
is not aligned, and the quotient of the least integer by minus one. -/

namespace Nachos
open Lib

namespace OpCode

/-- The `switch` has a case for the opcode. -/
def handled : OpCode → Bool
  | .rfe | .special | .bcond => false
  | _ => true

/-- The shift amount is the instruction's own. -/
def shiftsByExtra : OpCode → Bool
  | .sll | .sra | .srl => true
  | _ => false

def partialWord : OpCode → Bool
  | .lwl | .lwr | .swl | .swr => true
  | _ => false

end OpCode

namespace Instruction

/-! ## Decoding -/

/-- Every entry of `opTable` is an opcode in its own right, or asks for further
decoding in the format that fits. -/
theorem opTable_entry {p : OpCode × Format} (h : p ∈ opTable) :
    p = (.special, .rfmt) ∨ p = (.bcond, .ifmt) ∨
      p.1.handled = true ∧ p.1.shiftsByExtra = false := by
  revert p
  decide

theorem specialTable_entry {op : OpCode} (h : op ∈ specialTable) : op.handled = true := by
  revert op
  decide

theorem bcondOp_handled (i : BitVec 32) :
    (bcondOp i).handled = true ∧ (bcondOp i).shiftsByExtra = false := by
  unfold bcondOp
  repeat' split
  all_goals decide

theorem getD_mem_or {α : Type} (l : List α) (n : Nat) (d : α) :
    l.getD n d ∈ l ∨ l.getD n d = d := by
  rw [List.getD_eq_getElem?_getD]
  cases h : l[n]? with
  | none => exact .inr rfl
  | some x => exact .inl (List.mem_of_getElem? h)

theorem and_mask_lt (x : BitVec 32) : (x &&& 0x1f).toNat < 32 := by
  rw [BitVec.toNat_and]
  exact Nat.lt_of_le_of_lt Nat.and_le_right (by decide)

/-- Decoding lands in a case of the `switch`, and gives the shifts their five
bits. -/
theorem decode_spec (raw : BitVec 32) : (decode raw).opCode.handled = true ∧
    ((decode raw).opCode.shiftsByExtra = true → (decode raw).extra.toNat < 32) := by
  unfold decode
  dsimp only
  generalize hp : opTable.getD _ _ = p
  have hentry : p = (.special, .rfmt) ∨ p = (.bcond, .ifmt) ∨
      p.1.handled = true ∧ p.1.shiftsByExtra = false := by
    rcases getD_mem_or opTable (raw >>> 26 &&& 0x3f).toNat (.res, .ifmt) with h | h
    · exact opTable_entry (hp ▸ h)
    · rw [← hp, h]; exact .inr (.inr ⟨rfl, rfl⟩)
  rcases hentry with rfl | rfl | ⟨hh, hs⟩
  · refine ⟨?_, fun _ => and_mask_lt _⟩
    rcases getD_mem_or specialTable (raw &&& 0x3f).toNat .res with h | h
    · exact specialTable_entry h
    · rw [decodeOp, h]; rfl
  · exact ⟨(bcondOp_handled _).1, fun h => absurd h (by simp [decodeOp, (bcondOp_handled _).2])⟩
  · obtain ⟨op, format⟩ := p
    have hop : decodeOp raw op = op := by cases op <;> first | rfl | cases hh
    rw [hop]
    exact ⟨hh, fun h => absurd h (by simp [hs])⟩

/-! ## The two crashes -/

/-- The instruction fails an assertion of `OneInstruction`, or divides the least
integer by minus one. -/
def Crashes (i : Instruction) (r : Registers) : Prop :=
  i.opCode = .div ∧ r i.rs = intMin ∧ r i.rt = -1 ∨
    i.opCode.partialWord = true ∧ (r i.rs + i.extra) &&& 0x3 ≠ 0

instance (i : Instruction) (r : Registers) : Decidable (i.Crashes r) :=
  inferInstanceAs (Decidable (_ ∨ _))

end Instruction

namespace Action

/-- No fault on any way through the action. -/
def Safe : Action → Prop
  | .assign _ _ rest | .writeMem _ _ _ rest => rest.Safe
  | .readMem _ _ rest => ∀ value, (rest value).Safe
  | .fail _ => False
  | .done .. | .raise .. => True

end Action

namespace Instruction

variable {i : Instruction} {r : Registers}

theorem Crashes.execute (h : i.Crashes r) : ∃ fault, i.execute r = .fail fault := by
  obtain ⟨op, rs, rt, rd, extra⟩ := i
  rcases h with ⟨rfl, hrs, hrt⟩ | ⟨hop, htmp⟩
  · refine ⟨.undefined, ?_⟩
    dsimp only at hrs hrt
    simp only [Instruction.execute, hrs, hrt]
    rfl
  · refine ⟨.assertion .partialWord, ?_⟩
    cases op <;> first | exact if_neg htmp | cases hop

theorem execute_safe (hop : i.opCode.handled = true)
    (hshift : i.opCode.shiftsByExtra = true → i.extra.toNat < 32) (h : ¬ i.Crashes r) :
    (i.execute r).Safe := by
  have hmask := Nat.not_le.mpr (and_mask_lt (r i.rs))
  have hextra (hs : i.opCode.shiftsByExtra = true) : ¬ 32 ≤ i.extra.toNat :=
    Nat.not_le.mpr (hshift hs)
  have hdiv (ho : i.opCode = .div) : ¬ (r i.rs = intMin ∧ r i.rt = -1) :=
    fun hd => h (.inl ⟨ho, hd⟩)
  have hword (ho : i.opCode.partialWord = true) : (r i.rs + i.extra) &&& 0x3 = 0 :=
    not_not.mp fun hw => h (.inr ⟨ho, hw⟩)
  clear h hshift
  obtain ⟨op, rs, rt, rd, extra⟩ := i
  cases op
  case rfe | special | bcond => cases hop
  case div =>
    simp only [execute, if_neg (hdiv rfl)]
    split <;> trivial
  case divu =>
    simp only [execute]
    split <;> trivial
  case lwl | lwr | swl | swr =>
    simp only [execute, Action.assertWord, if_pos (hword rfl)]
    exact fun _ => trivial
  case lh | lhu | lw =>
    simp only [execute, Action.aligned]
    split
    · trivial
    · exact fun _ => trivial
  case add | addi | sub =>
    simp only [execute, Action.setUnless]
    split <;> trivial
  case sll | sra | srl =>
    simp only [execute, Action.shift, if_neg (hextra rfl)]
    trivial
  case sllv | srav | srlv =>
    simp only [execute, Action.shift, if_neg hmask]
    trivial
  case lb | lbu => exact fun _ => trivial
  all_goals trivial

end Instruction

/-! ## Running to the end -/

namespace Machine

variable {m : Machine} {a : Action}

theorem raiseException_isOk (which : ExceptionType) (badVAddr : BitVec 32) :
    (∃ o, m.raiseException which badVAddr = .ok o) ↔ m.registers.LoadOk := by
  unfold raiseException
  split
  · simp [*]
  · simp [*]

/-- An action without faults that leaves the pending load alone returns exactly
if that load has a target. -/
theorem exec_isOk (hs : a.Safe) (ha : a.AssignsIn (· ≠ loadReg)) :
    (∃ o, m.exec a = .ok o) ↔ m.registers.LoadOk := by
  induction a generalizing m with
  | done pcAfter nextReg nextValue =>
    simp only [exec]
    split
    · simp [*]
    · simp [*]
  | assign reg value rest ih =>
    have hload : m.registers.write reg value loadReg = m.registers loadReg :=
      Function.update_of_ne ha.1.symm _ _
    refine (ih hs ha.2).trans ?_
    simp only [Registers.LoadOk, hload]
  | readMem addr width rest ih =>
    simp only [exec]
    split
    · exact raiseException_isOk _ _
    · exact ih _ (hs _) (ha _)
  | writeMem addr width value rest ih =>
    simp only [exec]
    split
    · exact raiseException_isOk _ _
    · exact ih hs ha
  | raise which badVAddr => exact raiseException_isOk _ _
  | fail fault => exact hs.elim

end Machine

/-- `OneInstruction` gets through, to the end of the instruction or to
`RaiseException`, exactly if the pending load has a target and the instruction
it fetches, if it fetches one, is none of the crashing ones. -/
theorem oneInstruction_safe_iff (m : Machine) :
    ((∀ raw, (Instruction.decode raw).opCode.handled = true) ∧ ∃ o, m.oneInstruction = .ok o) ↔
      m.registers.LoadOk ∧ ∀ raw mem,
        m.memory.readMem (m.registers pcReg) .word = .ok (raw, mem) →
          ¬ (Instruction.decode raw).Crashes m.registers := by
  have hhandled (raw : BitVec 32) := (Instruction.decode_spec raw).1
  have hcontrol (raw : BitVec 32) :
      ((Instruction.decode raw).execute m.registers).AssignsIn (· ≠ loadReg) :=
    (Instruction.execute_assigns _ _).mono fun x hx =>
      Fin.ne_of_lt (Fin.lt_trans hx.lt (by decide))
  cases hfetch : m.memory.readMem (m.registers pcReg) .word with
  | error which =>
    rw [Machine.oneInstruction_of_not_fetch hfetch, Machine.raiseException_isOk]
    exact ⟨fun h => ⟨h.2, fun _ _ hr => by cases hr⟩, fun h => ⟨hhandled, h.1⟩⟩
  | ok fetched =>
    obtain ⟨raw, mem⟩ := fetched
    rw [Machine.oneInstruction_of_fetch hfetch]
    by_cases hc : (Instruction.decode raw).Crashes m.registers
    · obtain ⟨fault, hfail⟩ := hc.execute
      rw [hfail]
      constructor
      · rintro ⟨-, o, ho⟩; cases ho
      · rintro ⟨-, h⟩; exact absurd hc (h raw mem rfl)
    · have hsafe := Instruction.execute_safe (hhandled raw) (Instruction.decode_spec raw).2 hc
      rw [Machine.exec_isOk hsafe (hcontrol raw)]
      constructor
      · rintro ⟨-, h⟩
        refine ⟨h, fun raw' mem' hr => ?_⟩
        cases hr
        exact hc
      · exact fun h => ⟨hhandled, h.1⟩

/-- `lwl r4, 1(r0)` fails its assertion, and `div r1, r2` with the least integer
in `r1` and minus one in `r2` is a division the host does not define. -/
theorem oneInstruction_crashes :
    ∃ r : Registers, r 0 = 0 ∧ r.LoadOk ∧
      (Machine.mk r (.sample true [0x01, 0x00, 0x04, 0x88])).oneInstruction =
        .error (.assertion .partialWord) ∧
      (Machine.mk r (.sample true [0x1a, 0x00, 0x22, 0x00])).oneInstruction =
        .error .undefined :=
  ⟨(Registers.write (fun _ => 0) 1 intMin).write 2 (-1), rfl, by decide, rfl, rfl⟩

end Nachos

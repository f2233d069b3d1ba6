import Mathlib.Logic.Function.Basic

/-! The simulated machine's constants and its register file (machine.h,
machine.cc, mipssim.cc). All forty registers are 32-bit words; the last six
hold the program counters, the pending delayed load and the address of the
last exception. -/

namespace Nachos

abbrev pageSize : Nat := 256
abbrev numPhysPages : Nat := 32
abbrev memorySize : Nat := numPhysPages * pageSize
abbrev userStackSize : Nat := 1024
abbrev numTotalRegs : Nat := 40

-- so that a number denotes a register
instance : @NeZero Nat Zero.ofOfNat0 numTotalRegs := ⟨Nat.succ_ne_zero 39⟩

abbrev Registers := Fin numTotalRegs → BitVec 32

abbrev stackReg : Fin numTotalRegs := 29
abbrev pcReg : Fin numTotalRegs := 34
abbrev nextPCReg : Fin numTotalRegs := 35
abbrev prevPCReg : Fin numTotalRegs := 36
abbrev loadReg : Fin numTotalRegs := 37
abbrev loadValueReg : Fin numTotalRegs := 38
abbrev badVAddrReg : Fin numTotalRegs := 39

namespace Registers

/-- `Machine::WriteRegister`. -/
def write (r : Registers) (num : Fin numTotalRegs) (value : BitVec 32) : Registers :=
  Function.update r num value

/-- `Machine::DelayedLoad`: apply the pending load, make the new one pending.
A target outside the register file would be a stray host write; it changes no
register. -/
def delayedLoad (r : Registers) (nextReg nextValue : BitVec 32) : Registers :=
  let applied :=
    if h : (r loadReg).toNat < numTotalRegs then r.write ⟨_, h⟩ (r loadValueReg) else r
  ((applied.write loadReg nextReg).write loadValueReg nextValue).write 0 0

/-- What an interrupt or a trap does to the pending load: `DelayedLoad(0, 0)`. -/
def flush (r : Registers) : Registers := r.delayedLoad 0 0

/-- The register part of `Machine::RaiseException`. -/
def raise (r : Registers) (badVAddr : BitVec 32) : Registers :=
  (r.write badVAddrReg badVAddr).flush

/-- The system call prologue of `ExceptionHandler`: step past the call. -/
def advance (r : Registers) : Registers :=
  let r := r.write prevPCReg (r pcReg)
  let r := r.write pcReg (r nextPCReg)
  r.write nextPCReg (r nextPCReg + 4)

/-- `AddrSpace::InitRegisters` for a space of `numPages` pages. -/
def init (numPages : Nat) : Registers :=
  let zeroed : Registers := fun _ => 0
  ((zeroed.write pcReg 0).write nextPCReg 4).write stackReg
    (BitVec.ofInt 32 (numPages * pageSize - 16))

theorem delayedLoad_apply (r : Registers) (nextReg nextValue : BitVec 32) (x : Fin numTotalRegs) :
    r.delayedLoad nextReg nextValue x =
      if x = 0 then 0 else if x = loadValueReg then nextValue else if x = loadReg then nextReg
      else if (r loadReg).toNat = x then r loadValueReg else r x := by
  unfold delayedLoad write
  simp only [Function.update_apply]
  split
  · rfl
  · split
    · rfl
    · split
      · rfl
      · split
        · simp only [Function.update_apply, Fin.ext_iff, eq_comm]
        · rename_i hl
          rw [if_neg (by omega)]

/-- A delayed load is a flush that leaves a new load pending. -/
theorem delayedLoad_of_ne (r : Registers) (nextReg nextValue : BitVec 32) {x : Fin numTotalRegs}
    (hr : x ≠ loadReg) (hv : x ≠ loadValueReg) : r.delayedLoad nextReg nextValue x = r.flush x := by
  simp only [flush, delayedLoad_apply, if_neg hr, if_neg hv]

theorem flush_apply (r : Registers) {x : Fin numTotalRegs} (h0 : x ≠ 0) (hr : x ≠ loadReg)
    (hv : x ≠ loadValueReg) :
    r.flush x = if (r loadReg).toNat = x then r loadValueReg else r x := by
  simp only [flush, delayedLoad_apply, if_neg h0, if_neg hr, if_neg hv]

theorem flush_loadReg (r : Registers) : r.flush loadReg = 0 := by
  simp [flush, delayedLoad_apply]

theorem flush_loadValueReg (r : Registers) : r.flush loadValueReg = 0 := by
  simp [flush, delayedLoad_apply]

theorem flush_zero (r : Registers) : r.flush 0 = 0 := by
  simp [flush, delayedLoad_apply]

/-- With nothing pending and register 0 clear there is nothing to apply. -/
theorem flush_eq_self {r : Registers} (hl : r loadReg = 0) (hv : r loadValueReg = 0)
    (h0 : r 0 = 0) : r.flush = r := by
  funext x
  rw [flush, delayedLoad_apply]
  split
  · rename_i hx; rw [hx, h0]
  · rename_i hx0
    split
    · rename_i hx; rw [hx, hv]
    · split
      · rename_i hx; rw [hx, hl]
      · rw [if_neg]
        intro hx
        rw [hl] at hx
        exact hx0 (Fin.ext hx.symm)

/-- Flushing twice is flushing once. -/
@[simp] theorem flush_flush (r : Registers) : r.flush.flush = r.flush :=
  flush_eq_self r.flush_loadReg r.flush_loadValueReg r.flush_zero

theorem raise_loadReg (r : Registers) (badVAddr : BitVec 32) : r.raise badVAddr loadReg = 0 :=
  flush_loadReg _

theorem raise_zero (r : Registers) (badVAddr : BitVec 32) : r.raise badVAddr 0 = 0 :=
  flush_zero _

/-- An exception applies the pending load, and otherwise changes only registers
of its own. -/
theorem raise_apply (r : Registers) {x : Fin numTotalRegs} (h0 : x ≠ 0) (hr : x ≠ loadReg)
    (hv : x ≠ loadValueReg) (hb : x ≠ badVAddrReg) (badVAddr : BitVec 32) :
    r.raise badVAddr x = if (r loadReg).toNat = x then r loadValueReg else r x := by
  have hw (y : Fin numTotalRegs) (hy : y ≠ badVAddrReg) : r.write badVAddrReg badVAddr y = r y :=
    Function.update_of_ne hy _ _
  rw [raise, flush_apply _ h0 hr hv, hw x hb, hw loadReg (by decide), hw loadValueReg (by decide)]

/-- With no load pending an exception changes only registers of its own. -/
theorem raise_of_idle {r : Registers} {i : Fin numTotalRegs} (hl : r loadReg = 0) (h0 : i ≠ 0)
    (hi : i < pcReg) (badVAddr : BitVec 32) : r.raise badVAddr i = r i := by
  have hne (j : Fin numTotalRegs) (hj : pcReg ≤ j) : i ≠ j :=
    Fin.ne_of_lt (Fin.lt_of_lt_of_le hi hj)
  rw [raise_apply r h0 (hne loadReg (by decide)) (hne loadValueReg (by decide))
    (hne badVAddrReg (by decide)), if_neg]
  rw [hl]
  exact fun h => h0 (Fin.ext h.symm)

theorem advance_of_ne {r : Registers} {i : Fin numTotalRegs} (hprev : i ≠ prevPCReg)
    (hpc : i ≠ pcReg) (hnext : i ≠ nextPCReg) : r.advance i = r i := by
  unfold advance write
  rw [Function.update_of_ne hnext, Function.update_of_ne hpc, Function.update_of_ne hprev]

end Registers
end Nachos

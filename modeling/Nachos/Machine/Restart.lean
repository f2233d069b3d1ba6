import Nachos.Machine.Footprint
import Nachos.Machine.VirtualMemory

/-! Restarting an instruction. `OneInstruction` simulates an instruction from
scratch each time it is called, and a trap or an interrupt applies the pending
load early. An instruction that does not touch the target of that load cannot
tell: however often it faults, and is restarted when its page has come in, it
ends as if it had never been interrupted. The argument has three parts: what
the registers look like behind a flush, that an instruction's assignments and
stores come behind its last access that can fault, and that memory read through
a page table is the image the resident pages hold. -/

namespace Nachos
open Lib

/-! ## Registers behind a flush -/

namespace Registers

/-- Equal but for the address of the last exception, which no instruction of a
user program reads. -/
def Same (r s : Registers) : Prop := ∀ x, x ≠ badVAddrReg → r x = s x

theorem Same.refl (r : Registers) : r.Same r := fun _ _ => rfl

theorem Same.trans {r s t : Registers} (h : r.Same s) (h' : s.Same t) : r.Same t :=
  fun x hx => (h x hx).trans (h' x hx)

theorem Same.symm {r s : Registers} (h : r.Same s) : s.Same r := fun x hx => (h x hx).symm

theorem raise_same (r : Registers) (badVAddr : BitVec 32) : (r.raise badVAddr).Same r.flush := by
  intro x hx
  have hw (y : Fin numTotalRegs) (hy : y ≠ badVAddrReg) : r.write badVAddrReg badVAddr y = r y :=
    Function.update_of_ne hy _ _
  simp only [raise, flush, delayedLoad_apply, hw x hx, hw loadReg (by decide),
    hw loadValueReg (by decide)]

theorem Same.flush {r s : Registers} (h : r.Same s) : r.flush.Same s.flush := by
  intro x hx
  simp only [Registers.flush, delayedLoad_apply, h x hx, h loadReg (by decide),
    h loadValueReg (by decide)]

/-- An assignment to any register but the target of the pending load commutes
with applying that load. -/
theorem flush_write {r : Registers} {x : Fin numTotalRegs} (value : BitVec 32)
    (hr : x ≠ loadReg) (hv : x ≠ loadValueReg) (ht : (r loadReg).toNat ≠ x) (y : Fin numTotalRegs) :
    (r.write x value).flush y = if y = x ∧ y ≠ 0 then value else r.flush y := by
  have hw (z : Fin numTotalRegs) (hz : z ≠ x) : r.write x value z = r z :=
    Function.update_of_ne hz _ _
  simp only [flush, delayedLoad_apply, hw loadReg hr.symm, hw loadValueReg hv.symm]
  by_cases hy : y = x
  · subst hy
    by_cases h0 : y = 0 <;> simp [h0, hr, hv, ht, write]
  · simp only [hw y hy, hy, false_and, if_false]

theorem Same.flush_write {r s : Registers} (h : r.flush.Same s.flush) {x : Fin numTotalRegs}
    (value : BitVec 32) (hr : x ≠ loadReg) (hv : x ≠ loadValueReg)
    (htr : x ≠ 0 → (r loadReg).toNat ≠ x) (hts : x ≠ 0 → (s loadReg).toNat ≠ x) :
    (r.write x value).flush.Same (s.write x value).flush := by
  intro y hy
  by_cases h0 : x = 0
  · -- register 0 is cleared behind either load
    subst h0
    have hclear (t : Registers) : (t.write 0 value).flush y = t.flush y := by
      have hw (z : Fin numTotalRegs) (hz : z ≠ 0) : t.write 0 value z = t z :=
        Function.update_of_ne hz _ _
      simp only [Registers.flush, delayedLoad_apply, hw loadReg (by decide),
        hw loadValueReg (by decide)]
      by_cases hy0 : y = 0
      · rw [if_pos hy0, if_pos hy0]
      · rw [hw y hy0]
    rw [hclear, hclear, h y hy]
  · rw [Registers.flush_write value hr hv (htr h0), Registers.flush_write value hr hv (hts h0),
      h y hy]

theorem Same.finish {r s : Registers} (h : r.flush.Same s.flush)
    (pcAfter nextReg nextValue : BitVec 32) :
    (r.finish pcAfter nextReg nextValue).Same (s.finish pcAfter nextReg nextValue) := by
  have hload (x : Fin numTotalRegs) (hx : x ≠ badVAddrReg) :
      r.delayedLoad nextReg nextValue x = s.delayedLoad nextReg nextValue x := by
    by_cases hr : x = loadReg
    · subst hr; simp [delayedLoad_apply]
    · by_cases hv : x = loadValueReg
      · subst hv; simp [delayedLoad_apply]
      · rw [delayedLoad_of_ne _ _ _ hr hv, delayedLoad_of_ne _ _ _ hr hv, h x hx]
  intro x hx
  unfold Registers.finish write
  simp only [Function.update_apply, hload x hx, hload pcReg (by decide),
    hload nextPCReg (by decide)]

end Registers

/-! ## Restarts -/

/-- Two memories with the same contents, given the image they were loaded from:
where no page of `res` lies it is the image's still. -/
def SameMemory (res : Nat → Prop) (image : Nat → UInt8) (mem mem' : Memory) : Prop :=
  ∃ image', mem.Holds image' ∧ mem'.Holds image' ∧ ∀ p, ¬ res (p / pageSize) → image' p = image p

/-- Two results of `OneInstruction` a user program cannot tell apart. -/
inductive SameResult (res : Nat → Prop) (image : Nat → UInt8) :
    Except Fault Outcome → Except Fault Outcome → Prop
  | completed {a b : Machine} (hr : a.registers.Same b.registers)
      (hm : SameMemory res image a.memory b.memory) :
      SameResult res image (.ok (.completed a)) (.ok (.completed b))
  | raised {a b : Machine} (which : ExceptionType) (hr : a.registers.Same b.registers)
      (hm : SameMemory res image a.memory b.memory) :
      SameResult res image (.ok (.raised which a)) (.ok (.raised which b))
  | failed (fault : Fault) : SameResult res image (.error fault) (.error fault)

def PageFaulted (result : Except Fault Outcome) : Prop :=
  ∃ m, result = .ok (.raised .pageFault m)

namespace Machine

/-- Two machines about to carry out the same action, one of them with its
pending load perhaps applied; `S` are the registers the action assigns. -/
structure Twin (S : Fin numTotalRegs → Prop) (res : Nat → Prop) (image : Nat → UInt8)
    (m₀ m : Machine) : Prop where
  registers : m₀.registers.flush.Same m.registers.flush
  loadOk₀ : m₀.registers.LoadOk
  loadOk : m.registers.LoadOk
  noControl : ∀ x, S x → x ≠ loadReg ∧ x ≠ loadValueReg
  free₀ : ∀ x, S x → x ≠ 0 → (m₀.registers loadReg).toNat ≠ x
  free : ∀ x, S x → x ≠ 0 → (m.registers loadReg).toNat ≠ x
  alike : m.memory.Alike m₀.memory
  resident : ∀ v, m₀.memory.Resident v ↔ res v
  holds₀ : m₀.memory.Holds image
  holds : m.memory.Holds image

variable {S : Fin numTotalRegs → Prop} {res : Nat → Prop} {image : Nat → UInt8} {m₀ m : Machine}

theorem Twin.sameMemory (h : Twin S res image m₀ m) :
    SameMemory res image m₀.memory m.memory :=
  ⟨image, h.holds₀, h.holds, fun _ _ => rfl⟩

theorem Twin.raiseException (h : Twin S res image m₀ m) (which : ExceptionType)
    (badVAddr : BitVec 32) :
    SameResult res image (m₀.raiseException which badVAddr) (m.raiseException which badVAddr) := by
  unfold Machine.raiseException
  rw [if_pos h.loadOk₀, if_pos h.loadOk]
  have hsame := (m₀.registers.raise_same badVAddr).trans
    (h.registers.trans (m.registers.raise_same badVAddr).symm)
  exact .raised which hsame h.sameMemory

theorem Twin.assign (h : Twin S res image m₀ m) {reg : Fin numTotalRegs} (hreg : S reg)
    (value : BitVec 32) :
    Twin S res image { m₀ with registers := m₀.registers.write reg value }
      { m with registers := m.registers.write reg value } := by
  obtain ⟨hr, hv⟩ := h.noControl reg hreg
  have hload (r : Registers) : r.write reg value loadReg = r loadReg :=
    Function.update_of_ne hr.symm _ _
  have hok (r : Registers) (hl : r.LoadOk) : (r.write reg value).LoadOk := by
    unfold Registers.LoadOk
    rw [hload]
    exact hl
  refine ⟨h.registers.flush_write value hr hv (h.free₀ reg hreg) (h.free reg hreg),
    hok _ h.loadOk₀, hok _ h.loadOk, h.noControl, ?_, ?_, h.alike, h.resident, h.holds₀, h.holds⟩
  · dsimp only
    rw [hload]
    exact h.free₀
  · dsimp only
    rw [hload]
    exact h.free

theorem Twin.access (h : Twin S res image m₀ m) {mem₀ mem : Memory} {image' : Nat → UInt8}
    (hs₀ : m₀.memory.Steady mem₀) (hs : m.memory.Steady mem) (hh₀ : mem₀.Holds image')
    (hh : mem.Holds image') :
    Twin S res image' { m₀ with memory := mem₀ } { m with memory := mem } :=
  ⟨h.registers, h.loadOk₀, h.loadOk, h.noControl, h.free₀, h.free,
    hs.alike.trans (h.alike.trans hs₀.alike.symm), fun v => (hs₀.resident v).trans (h.resident v),
    hh₀, hh⟩

theorem SameMemory.of_store {mem mem' : Memory} {addr : BitVec 32} {bs : List UInt8}
    (hin : addr.toNat % pageSize + bs.length ≤ pageSize) (hres : res (vpnOf addr))
    (h : SameMemory res (overlay image addr.toNat bs) mem mem') :
    SameMemory res image mem mem' := by
  obtain ⟨image', h₀, h₁, hout⟩ := h
  refine ⟨image', h₀, h₁, fun p hp => (hout p hp).trans ?_⟩
  -- the store lies in a page of `res`
  have hne : p / pageSize ≠ vpnOf addr := fun he => hp (he ▸ hres)
  have hd := Memory.vpnOf_add addr
  simp only [pageSize] at *
  rcases Nat.lt_or_gt_of_ne hne with hlt | hgt
  · exact overlay_of_lt (by omega)
  · exact overlay_of_le (by omega)

theorem SameResult.of_store {a b : Except Fault Outcome} {addr : BitVec 32} {bs : List UInt8}
    (hin : addr.toNat % pageSize + bs.length ≤ pageSize) (hres : res (vpnOf addr))
    (h : SameResult res (overlay image addr.toNat bs) a b) : SameResult res image a b := by
  cases h with
  | completed hr hm => exact .completed hr (SameMemory.of_store hin hres hm)
  | raised which hr hm => exact .raised which hr (SameMemory.of_store hin hres hm)
  | failed fault => exact .failed fault

theorem raiseException_pageFaulted (h : m.registers.LoadOk) (badVAddr : BitVec 32) :
    PageFaulted (m.raiseException .pageFault badVAddr) :=
  ⟨_, if_pos h⟩

/-- Twins carry out an action alike, unless one of them meets a page that is
not resident. -/
theorem Twin.exec {a : Action} (h : Twin S res image m₀ m) (ha : a.AssignsIn S) :
    PageFaulted (m₀.exec a) ∨ PageFaulted (m.exec a) ∨
      SameResult res image (m₀.exec a) (m.exec a) := by
  induction a generalizing image m₀ m with
  | done pcAfter nextReg nextValue =>
    refine .inr (.inr ?_)
    simp only [Machine.exec, if_pos h.loadOk₀, if_pos h.loadOk]
    exact .completed (h.registers.finish pcAfter nextReg nextValue) h.sameMemory
  | assign reg value rest ih => exact ih (h.assign ha.1 value) ha.2
  | readMem addr width rest ih =>
    simp only [Machine.exec]
    rcases Memory.readMem_cases h.holds₀ addr width with
      h₀ | ⟨e₀, hr₀, h₀⟩ | ⟨mem₀, hr₀, h₀, hs₀, hh₀⟩
    · rw [h₀]; exact .inl (raiseException_pageFaulted h.loadOk₀ addr)
    all_goals
      rcases Memory.readMem_cases h.holds addr width with
        h₁ | ⟨e₁, hr₁, h₁⟩ | ⟨mem₁, hr₁, h₁, hs₁, hh₁⟩
      · rw [h₁]; exact .inr (.inl (raiseException_pageFaulted h.loadOk addr))
    · rw [h.alike.refusal, hr₀] at hr₁
      cases hr₁
      rw [h₀, h₁]
      exact .inr (.inr (h.raiseException e₀ addr))
    · rw [h.alike.refusal, hr₀] at hr₁; cases hr₁
    · rw [h.alike.refusal, hr₀] at hr₁; cases hr₁
    · rw [h₀, h₁]
      exact ih _ (h.access hs₀ hs₁ hh₀ hh₁) (ha _)
  | writeMem addr width value rest ih =>
    simp only [Machine.exec]
    rcases Memory.writeMem_cases h.holds₀ addr width value with
      h₀ | ⟨e₀, hr₀, h₀⟩ | ⟨mem₀, hr₀, h₀, hs₀, hv₀, hal, hh₀⟩
    · rw [h₀]; exact .inl (raiseException_pageFaulted h.loadOk₀ addr)
    all_goals
      rcases Memory.writeMem_cases h.holds addr width value with
        h₁ | ⟨e₁, hr₁, h₁⟩ | ⟨mem₁, hr₁, h₁, hs₁, -, -, hh₁⟩
      · rw [h₁]; exact .inr (.inl (raiseException_pageFaulted h.loadOk addr))
    · rw [h.alike.refusal, hr₀] at hr₁
      cases hr₁
      rw [h₀, h₁]
      exact .inr (.inr (h.raiseException e₀ addr))
    · rw [h.alike.refusal, hr₀] at hr₁; cases hr₁
    · rw [h.alike.refusal, hr₀] at hr₁; cases hr₁
    · rw [h₀, h₁]
      have hin : addr.toNat % pageSize + (valueBytes width value).length ≤ pageSize := by
        rw [valueBytes_length]; exact offset_add_size_le hal
      rcases ih (h.access hs₀ hs₁ hh₀ hh₁) ha with hp | hp | hsame
      · exact .inl hp
      · exact .inr (.inl hp)
      · exact .inr (.inr (SameResult.of_store hin ((h.resident _).mp hv₀) hsame))
  | raise which badVAddr => exact .inr (.inr (h.raiseException which badVAddr))
  | fail fault => exact .inr (.inr (.failed fault))

theorem exec_of_final {a : Action} (ha : a.Final) :
    ∀ m' which, m.exec a ≠ .ok (.raised which m') := by
  induction a generalizing m with
  | done pcAfter nextReg nextValue =>
    intro m' which h
    simp only [Machine.exec] at h
    split at h <;> cases h
  | assign reg value rest ih => exact ih ha
  | _ => exact ha.elim

/-- `m'` is `m` with its pending load applied, over a memory that holds the
image as before. -/
structure Flushed (image : Nat → UInt8) (m m' : Machine) : Prop where
  registers : m'.registers.Same m.registers.flush
  holds : m'.memory.Holds image
  alike : m'.memory.Alike m.memory

theorem raiseException_flushed {e which : ExceptionType} {badVAddr : BitVec 32} {m' : Machine}
    (hh : m.memory.Holds image) (h : m.raiseException e badVAddr = .ok (.raised which m')) :
    Flushed image m m' := by
  unfold raiseException at h
  split at h
  · cases h
    exact ⟨m.registers.raise_same badVAddr, hh, rfl, fun _ => rfl⟩
  · cases h

/-- Where a restartable action raises an exception nothing has happened yet,
but that the pending load has been applied. -/
theorem exec_raised {a : Action} {which : ExceptionType} {m' : Machine} (ha : a.Restartable)
    (hh : m.memory.Holds image) (h : m.exec a = .ok (.raised which m')) : Flushed image m m' := by
  induction a generalizing m with
  | done pcAfter nextReg nextValue =>
    simp only [exec] at h
    split at h <;> cases h
  | assign reg value rest => exact absurd h (exec_of_final ha m' which)
  | readMem addr width rest ih =>
    simp only [exec] at h
    rcases Memory.readMem_cases hh addr width with h₀ | ⟨e, -, h₀⟩ | ⟨mem, -, h₀, hs, hh'⟩
    · rw [h₀] at h; exact raiseException_flushed hh h
    · rw [h₀] at h; exact raiseException_flushed hh h
    · rw [h₀] at h
      have hf := ih _ (ha _) hh' h
      exact ⟨hf.registers, hf.holds, hf.alike.trans hs.alike⟩
  | writeMem addr width value rest =>
    simp only [exec] at h
    rcases Memory.writeMem_cases hh addr width value with h₀ | ⟨e, -, h₀⟩ | ⟨mem, -, h₀, -⟩
    · rw [h₀] at h; exact raiseException_flushed hh h
    · rw [h₀] at h; exact raiseException_flushed hh h
    · rw [h₀] at h; exact absurd h (exec_of_final ha m' which)
  | raise e badVAddr => exact raiseException_flushed hh h
  | fail fault => cases h

theorem oneInstruction_raised {which : ExceptionType} {m' : Machine} (hh : m.memory.Holds image)
    (h : m.oneInstruction = .ok (.raised which m')) : Flushed image m m' :=
  exec_raised (a := .readMem _ _ _) (fun _ => Instruction.execute_restartable _ _) hh h

/-- What the kernel does about a page fault: the faulted page comes in, others
may go out, and the address space is what it was. -/
structure Serviced (image : Nat → UInt8) (m m' : Machine) : Prop where
  registers : m'.registers = m.registers
  holds : m'.memory.Holds image
  alike : m'.memory.Alike m.memory

/-- An instruction held up: any number of page faults, each of them serviced,
and interrupts, each of which flushes the pending load. -/
inductive HeldUp (image : Nat → UInt8) : Machine → Machine → Prop
  | refl (m : Machine) : HeldUp image m m
  | fault {m m₁ m₂ m' : Machine} : m.oneInstruction = .ok (.raised .pageFault m₁) →
      Serviced image m₁ m₂ → HeldUp image m₂ m' → HeldUp image m m'
  | interrupt {m m' : Machine} :
      HeldUp image { m with registers := m.registers.flush } m' → HeldUp image m m'

/-- Held up, a machine stands where it stood, its pending load perhaps
applied. -/
theorem HeldUp.registers {m' : Machine} (h : HeldUp image m m') (hh : m.memory.Holds image) :
    (m'.registers.Same m.registers ∨ m'.registers.Same m.registers.flush) ∧
      m'.memory.Holds image ∧ m'.memory.Alike m.memory := by
  induction h with
  | refl m => exact ⟨.inl (.refl _), hh, rfl, fun _ => rfl⟩
  | @fault m m₁ m₂ m' hf hs _ ih =>
    have hfl := oneInstruction_raised hh hf
    obtain ⟨hr, hh', ha⟩ := ih hs.holds
    rw [hs.registers] at hr
    have hidle : m₁.registers.flush.Same m.registers.flush := by
      have := hfl.registers.flush
      rwa [Registers.flush_flush] at this
    refine ⟨.inr ?_, hh', ha.trans (hs.alike.trans hfl.alike)⟩
    rcases hr with hr | hr
    · exact hr.trans hfl.registers
    · exact hr.trans hidle
  | @interrupt m m' _ ih =>
    obtain ⟨hr, hh', ha⟩ := ih hh
    dsimp only at hr
    rw [Registers.flush_flush] at hr
    exact ⟨.inr (hr.elim id id), hh', ha⟩

end Machine

/-! ## Transparency -/

/-- No load is pending that the instruction could tell from an applied one. -/
def Registers.PendingFree (r : Registers) (i : Instruction) : Prop :=
  r loadReg = 0 ∧ r loadValueReg = 0 ∨
    ∃ l : Fin numTotalRegs, (r loadReg).toNat = l ∧ ¬ i.Touches l

namespace Registers

variable {r s : Registers} {i : Instruction}

theorem PendingFree.loadOk (h : r.PendingFree i) : r.LoadOk := by
  unfold LoadOk
  rcases h with ⟨hl, -⟩ | ⟨l, hl, -⟩
  · rw [hl]; decide
  · rw [hl]; exact l.isLt

theorem PendingFree.writes (h : r.PendingFree i) {x : Fin numTotalRegs} (hx : i.Writes x)
    (h0 : x ≠ 0) : (r loadReg).toNat ≠ x := by
  rcases h with ⟨hl, -⟩ | ⟨l, hl, ht⟩
  · rw [hl]; exact fun he => h0 (Fin.ext he.symm)
  · rw [hl]; exact fun he => ht (.inr (.inl (Fin.ext he ▸ hx)))

/-- What the instruction uses is the same before and behind a flush. -/
theorem PendingFree.flush (h : r.PendingFree i) (h0 : r 0 = 0) {x : Fin numTotalRegs}
    (hx : i.Reads x ∨ x = pcReg ∨ x = nextPCReg) : r.flush x = r x := by
  rcases h with ⟨hl, hv⟩ | ⟨l, hl, ht⟩
  · rw [flush_eq_self hl hv h0]
  · have hctl : x ≠ loadReg ∧ x ≠ loadValueReg := by
      rcases hx with hx | rfl | rfl
      · exact ⟨Fin.ne_of_lt (Fin.lt_trans hx.lt (by decide)),
          Fin.ne_of_lt (Fin.lt_trans hx.lt (by decide))⟩
      · decide
      · decide
    by_cases hz : x = 0
    · rw [hz, flush_zero, h0]
    · rw [flush_apply r hz hctl.1 hctl.2, hl, if_neg]
      intro he
      have : l = x := Fin.ext he
      subst this
      rcases hx with hx | rfl | rfl
      · exact ht (.inl hx)
      · exact ht (.inr (.inr (.inl rfl)))
      · exact ht (.inr (.inr (.inr (.inl rfl))))

theorem Same.merged (h : r.Same s) (reg : GPReg) : r.merged reg = s.merged reg := by
  unfold Registers.merged
  rw [h loadReg (by decide), h loadValueReg (by decide),
    h reg (Fin.ne_of_lt (Fin.lt_trans (GPReg.lt_pcReg reg) (by decide)))]

theorem PendingFree.merged (h : r.PendingFree i) (h0 : r 0 = 0) (hop : i.opCode.readsRt = true) :
    r.flush.merged i.rt = r.merged i.rt := by
  have hread : i.Reads i.rt := .inr (.inl ⟨hop, rfl⟩)
  rcases h with ⟨hl, hv⟩ | ⟨l, hl, ht⟩
  · rw [flush_eq_self hl hv h0]
  · have hne : r loadReg ≠ BitVec.ofNat 32 i.rt := by
      intro he
      refine ht (.inl ?_)
      rw [he, GPReg.toNat_ofNat] at hl
      exact (Fin.ext hl.symm : l = i.rt) ▸ hread
    unfold Registers.merged
    rw [if_neg hne, flush_loadReg, flush_loadValueReg,
      PendingFree.flush (.inr ⟨l, hl, ht⟩) h0 (.inl hread)]
    split
    · rename_i he
      have hz : (i.rt : Fin numTotalRegs) = 0 := by
        have := congrArg BitVec.toNat he
        rw [GPReg.toNat_ofNat] at this
        exact Fin.ext this.symm
      rw [hz, h0]
    · rfl

/-- A restarted instruction finds what it found at first. -/
theorem PendingFree.used (h : r.PendingFree i) (h0 : r 0 = 0) (hs : s.Same r ∨ s.Same r.flush)
    {x : Fin numTotalRegs} (hx : i.Reads x ∨ x = pcReg ∨ x = nextPCReg) : s x = r x := by
  have hbad : x ≠ badVAddrReg := by
    rcases hx with hx | rfl | rfl
    · exact Fin.ne_of_lt (Fin.lt_trans hx.lt (by decide))
    · decide
    · decide
  rcases hs with hs | hs
  · exact hs x hbad
  · rw [hs x hbad, h.flush h0 hx]

theorem PendingFree.execute (h : r.PendingFree i) (h0 : r 0 = 0)
    (hs : s.Same r ∨ s.Same r.flush) : i.execute s = i.execute r := by
  refine Instruction.execute_congr (fun x hx => h.used h0 hs (.inl hx))
    (h.used h0 hs (.inr (.inr rfl))) fun hop => ?_
  rcases hs with hs | hs
  · exact hs.merged i.rt
  · rw [hs.merged, h.merged h0 hop]

end Registers

/-- A machine and the machine it has become while held up are twins. -/
theorem Registers.PendingFree.twin {i : Instruction} {image : Nat → UInt8} {m₀ m' : Machine}
    (h : m₀.registers.PendingFree i)
    (hr : m'.registers.Same m₀.registers ∨ m'.registers.Same m₀.registers.flush)
    (hh₀ : m₀.memory.Holds image) (hh : m'.memory.Holds image)
    (halike : m'.memory.Alike m₀.memory) :
    Machine.Twin i.Writes m₀.memory.Resident image m₀ m' := by
  have hload : m'.registers loadReg = m₀.registers loadReg ∨ m'.registers loadReg = 0 := by
    rcases hr with hr | hr
    · exact .inl (hr loadReg (by decide))
    · exact .inr ((hr loadReg (by decide)).trans (Registers.flush_loadReg _))
  refine ⟨?_, h.loadOk, ?_, fun x hx => ?_, fun x hx => h.writes hx, fun x hx hz => ?_,
    halike, fun _ => Iff.rfl, hh₀, hh⟩
  · rcases hr with hr | hr
    · exact hr.symm.flush
    · have := hr.symm.flush
      rwa [Registers.flush_flush] at this
  · unfold Registers.LoadOk
    rcases hload with hl | hl
    · rw [hl]; exact h.loadOk
    · rw [hl]; decide
  · exact ⟨Fin.ne_of_lt (Fin.lt_trans hx.lt (by decide)),
      Fin.ne_of_lt (Fin.lt_trans hx.lt (by decide))⟩
  · rcases hload with hl | hl
    · rw [hl]; exact h.writes hx hz
    · rw [hl]; exact fun he => hz (Fin.ext he.symm)

theorem Machine.raiseException_not_pageFaulted {m : Machine} {which : ExceptionType}
    {addr : BitVec 32} (hne : which ≠ .pageFault) :
    ¬ PageFaulted (m.raiseException which addr) := by
  intro ⟨m', h⟩
  unfold Machine.raiseException at h
  split at h
  · cases h; exact hne rfl
  · cases h

/-- An action that raises no page fault itself meets none with every page of the
table resident. -/
theorem Machine.exec_not_pageFaulted {a : Action} {image : Nat → UInt8} {m : Machine}
    (hn : a.NoFault) (hall : ∀ v < m.memory.pageTableSize, m.memory.Resident v)
    (hh : m.memory.Holds image) : ¬ PageFaulted (m.exec a) := by
  induction a generalizing m image with
  | done pcAfter nextReg nextValue =>
    rintro ⟨m', h⟩
    simp only [exec] at h
    split at h <;> cases h
  | assign reg value rest ih => exact ih hn hall hh
  | readMem addr width rest ih =>
    simp only [exec]
    rcases Memory.readMem_cases hh addr width with h₀ | ⟨e, hr, h₀⟩ | ⟨mem, -, h₀, hs, hh'⟩
    · exact absurd h₀ (Memory.readMem_ne_pageFault hall)
    · rw [h₀]; exact raiseException_not_pageFaulted (Memory.refusal_ne_pageFault hr)
    · rw [h₀]; exact ih _ (hn _) (hs.all_resident hall) hh'
  | writeMem addr width value rest ih =>
    simp only [exec]
    rcases Memory.writeMem_cases hh addr width value with
      h₀ | ⟨e, hr, h₀⟩ | ⟨mem, -, h₀, hs, -, -, hh'⟩
    · exact absurd h₀ (Memory.writeMem_ne_pageFault hall)
    · rw [h₀]; exact raiseException_not_pageFaulted (Memory.refusal_ne_pageFault hr)
    · rw [h₀]; exact ih hn (hs.all_resident hall) hh'
  | raise which badVAddr => exact raiseException_not_pageFaulted hn
  | fail fault =>
    rintro ⟨m', h⟩
    cases h

/-- With every page of the table resident an instruction meets no page fault. -/
theorem Machine.not_pageFaulted_of_resident {image : Nat → UInt8} {m : Machine}
    (hall : ∀ v < m.memory.pageTableSize, m.memory.Resident v) (hh : m.memory.Holds image) :
    ¬ PageFaulted m.oneInstruction :=
  exec_not_pageFaulted (a := .readMem _ _ _)
    (fun raw => (Instruction.decode raw).execute_noFault _) hall hh

/-- Page faults and interrupts are transparent. `m₀` executes an instruction
with all the pages it needs resident; `m`, the same machine with any pages of
the same address space resident, is held up on the way, and executes it at
last. The instruction does not touch the target of the load that is pending,
if one is. Then the two end with the same registers, program counters and
pending load, in the same memory, or with the same exception. -/
theorem restart_transparent {image : Nat → UInt8} {m₀ m m' : Machine} {raw : BitVec 32}
    {mem₁ : Memory} (h0 : m₀.registers 0 = 0) (hh₀ : m₀.memory.Holds image)
    (hh : m.memory.Holds image) (halike : m.memory.Alike m₀.memory)
    (hregs : m.registers = m₀.registers)
    (hfetch : m₀.memory.readMem (m₀.registers pcReg) .word = .ok (raw, mem₁))
    (hfree : m₀.registers.PendingFree (Instruction.decode raw)) (hheld : m.HeldUp image m')
    (hres₀ : ¬ PageFaulted m₀.oneInstruction) (hres : ¬ PageFaulted m'.oneInstruction) :
    SameResult m₀.memory.Resident image m₀.oneInstruction m'.oneInstruction := by
  obtain ⟨hr, hh', ha⟩ := hheld.registers hh
  rw [hregs] at hr
  have htwin := hfree.twin hr hh₀ hh' (ha.trans halike)
  have hpc : m'.registers pcReg = m₀.registers pcReg := hfree.used h0 hr (.inr (.inl rfl))
  rcases Memory.readMem_cases hh₀ (m₀.registers pcReg) .word with
    h₀ | ⟨e, -, h₀⟩ | ⟨mem, hr₀, h₀, hs₀, hm₀⟩
  · rw [hfetch] at h₀; cases h₀
  · rw [hfetch] at h₀; cases h₀
  rw [hfetch] at h₀
  cases h₀
  -- the fetch of the restarted instruction finds the same word
  rcases Memory.readMem_cases hh' (m₀.registers pcReg) .word with
    h₁ | ⟨e, hr₁, h₁⟩ | ⟨mem', -, h₁, hs₁, hm₁⟩
  · rw [← hpc] at h₁
    rw [Machine.oneInstruction_of_not_fetch h₁] at hres
    exact absurd (Machine.raiseException_pageFaulted htwin.loadOk _) hres
  · rw [htwin.alike.refusal, hr₀] at hr₁; cases hr₁
  · rw [← hpc] at h₁
    rw [Machine.oneInstruction_of_fetch hfetch] at hres₀ ⊢
    rw [Machine.oneInstruction_of_fetch h₁, hpc, hfree.execute h0 hr] at hres ⊢
    have hexec := (htwin.access hs₀ hs₁ hm₀ hm₁).exec (Instruction.execute_assigns _ m₀.registers)
    rcases hexec with hp | hp | hsame
    · exact absurd hp hres₀
    · exact absurd hp hres
    · exact hsame

/-! ### An instruction held up -/

/-- Registers with a load of 9 pending for register 7, and `zero` in register 0. -/
def Registers.sample (zero : BitVec 32) : Registers :=
  (((Registers.write (fun _ => 0) 0 zero).write nextPCReg 4).write loadReg 7).write loadValueReg 9

/-- `addu r3, r0, r0`. -/
def addSample : List UInt8 := [0x21, 0x18, 0, 0]

theorem addSample_fetch (valid : Bool) : (Memory.sample valid addSample).readMem 0 .word =
    if valid then .ok (0x1821, (Memory.sample true addSample).setEntry 0
      ⟨0, 0, true, false, true, false⟩) else .error .pageFault := by
  cases valid <;> rfl

theorem restart_transparent_sample :
    SameResult (Memory.sample true addSample).Resident (fun i => addSample.getD i 0)
      (Machine.mk (.sample 0) (.sample true addSample)).oneInstruction
      (Machine.mk (Registers.raise (.sample 0) 0) (.sample true addSample)).oneInstruction := by
  have hfault : (Machine.mk (.sample 0) (.sample false addSample)).oneInstruction =
      .ok (.raised .pageFault ⟨Registers.raise (.sample 0) 0, .sample false addSample⟩) :=
    (Machine.oneInstruction_of_not_fetch (addSample_fetch false)).trans (if_pos (by decide))
  have hserviced : Machine.Serviced (fun i => addSample.getD i 0)
      ⟨Registers.raise (.sample 0) 0, .sample false addSample⟩
      ⟨Registers.raise (.sample 0) 0, .sample true addSample⟩ :=
    ⟨rfl, Memory.sample_holds true addSample, Memory.sample_alike _ _ addSample⟩
  have hresident (r : Registers) :
      ¬ PageFaulted (Machine.mk r (.sample true addSample)).oneInstruction :=
    Machine.not_pageFaulted_of_resident (Memory.sample_resident addSample)
      (Memory.sample_holds true addSample)
  have hfree : Registers.PendingFree (.sample 0) (Instruction.decode 0x1821) :=
    .inr ⟨7, rfl, by decide⟩
  have hregs : (Machine.mk (.sample 0) (.sample false addSample)).registers =
      (Machine.mk (.sample 0) (.sample true addSample)).registers := rfl
  exact restart_transparent rfl (Memory.sample_holds true addSample)
    (Memory.sample_holds false addSample) (Memory.sample_alike false true addSample) hregs
    (addSample_fetch true) hfree (.fault hfault hserviced (.refl _)) (hresident _) (hresident _)

/-- Register 0 must be zero for that, as it always is in a machine that runs:
with 5 in it, an interrupt clears it in front of the instruction that adds it
to itself. -/
theorem restart_needs_zero :
    ∃ m a b : Machine, ∃ mem : Memory,
      m.registers 0 = 5 ∧ m.memory.Holds (fun i => addSample.getD i 0) ∧
      m.memory.readMem (m.registers pcReg) .word = .ok (0x1821, mem) ∧
      m.registers.PendingFree (Instruction.decode 0x1821) ∧
      m.HeldUp (fun i => addSample.getD i 0) { m with registers := m.registers.flush } ∧
      m.oneInstruction = .ok (.completed a) ∧
      { m with registers := m.registers.flush }.oneInstruction = .ok (.completed b) ∧
      a.registers 3 = 10 ∧ b.registers 3 = 0 := by
  refine ⟨⟨.sample 5, .sample true addSample⟩, _, _, _, rfl, Memory.sample_holds true addSample,
    addSample_fetch true, .inr ⟨7, rfl, by decide⟩, .interrupt (.refl _), rfl, rfl, ?_, ?_⟩
  · decide +kernel
  · decide +kernel

end Nachos

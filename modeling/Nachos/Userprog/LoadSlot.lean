import Nachos.Userprog.UserCode
import Nachos.Userprog.UserState

/-! Register 0 and the load slot. Any instruction may name register 0 as its
target, and the slot of the pending load is a register like the others; that
the one is zero and the other names a general register rests on `DelayedLoad`,
which every way out of an instruction goes through. -/

namespace Nachos
open Lib

namespace Registers

/-- Register 0 is zero, and the pending load is for a general register. -/
structure WellFormed (r : Registers) : Prop where
  zero : r 0 = 0
  slot : (r loadReg).toNat < numGPRegs

theorem WellFormed.of_delayedLoad (r : Registers) {nextReg : BitVec 32}
    (h : nextReg.toNat < numGPRegs) (nextValue : BitVec 32) :
    (r.delayedLoad nextReg nextValue).WellFormed := by
  constructor
  · rw [delayedLoad_apply, if_pos rfl]
  · rw [delayedLoad_apply, if_neg (by decide), if_neg (by decide), if_pos rfl]
    exact h

theorem wellFormed_flush (r : Registers) : r.flush.WellFormed :=
  .of_delayedLoad r (by decide) 0

theorem wellFormed_raise (r : Registers) (badVAddr : BitVec 32) : (r.raise badVAddr).WellFormed :=
  wellFormed_flush _

theorem wellFormed_init (numPages : Nat) : (init numPages).WellFormed :=
  ⟨rfl, (by decide : (0 : BitVec 32).toNat < numGPRegs)⟩

theorem WellFormed.write {r : Registers} (h : r.WellFormed) {x : Fin numTotalRegs} (h0 : x ≠ 0)
    (hl : x ≠ loadReg) (value : BitVec 32) : (r.write x value).WellFormed :=
  ⟨(Function.update_of_ne h0.symm _ _).trans h.zero, by
    rw [Registers.write, Function.update_of_ne hl.symm]; exact h.slot⟩

theorem WellFormed.advance {r : Registers} (h : r.WellFormed) : r.advance.WellFormed :=
  ((h.write (by decide) (by decide) _).write (by decide) (by decide) _).write (by decide)
    (by decide) _

theorem WellFormed.finish (r : Registers) {nextReg : BitVec 32} (h : nextReg.toNat < numGPRegs)
    (pcAfter nextValue : BitVec 32) : (r.finish pcAfter nextReg nextValue).WellFormed :=
  (((WellFormed.of_delayedLoad r h nextValue).write (by decide) (by decide) _).write (by decide)
    (by decide) _).write (by decide) (by decide) _

/-- Neither a general register nor one of the two of the load slot. -/
def Special (x : Fin numTotalRegs) : Prop :=
  numGPRegs ≤ x.val ∧ x ≠ loadReg ∧ x ≠ loadValueReg

/-- `DelayedLoad` writes no special register but the slot. -/
theorem WellFormed.delayedLoad_special {r : Registers} (h : r.WellFormed) {x : Fin numTotalRegs}
    (hx : Special x) (nextReg nextValue : BitVec 32) :
    r.delayedLoad nextReg nextValue x = r x := by
  obtain ⟨hge, hr, hv⟩ := hx
  have hslot := h.slot
  rw [delayedLoad_apply, if_neg (by rintro rfl; cases hge), if_neg hv, if_neg hr,
    if_neg (by omega)]

end Registers

/-! ## Instructions -/

namespace Action

/-- The load that the action leaves pending is for a general register. -/
def LoadsGeneral : Action → Prop
  | .done _ nextLoadReg _ => nextLoadReg.toNat < numGPRegs
  | .assign _ _ rest | .writeMem _ _ _ rest => rest.LoadsGeneral
  | .readMem _ _ rest => ∀ value, (rest value).LoadsGeneral
  | .raise .. | .fail _ => True

end Action

theorem Instruction.execute_loadsGeneral (i : Instruction) (r : Registers) :
    (i.execute r).LoadsGeneral := by
  have hload (reg : GPReg) : (reg : Nat) % 4294967296 < numGPRegs :=
    Nat.lt_of_le_of_lt (Nat.mod_le _ _) reg.isLt
  obtain ⟨op, rs, rt, rd, extra⟩ := i
  cases op <;> simp only [execute, Action.set, Action.setHiLo, Action.jump, Action.load,
    Action.setUnless, Action.shift, Action.aligned, Action.assertWord] <;>
    (repeat' split) <;> simp [Action.LoadsGeneral, hload]

namespace Machine

/-- Behind an instruction that completes, whatever the registers were before. -/
theorem exec_wellFormed {m m' : Machine} {a : Action} (ha : a.LoadsGeneral)
    (h : m.exec a = .ok (.completed m')) : m'.registers.WellFormed := by
  induction a generalizing m with
  | done pcAfter nextReg nextValue =>
    simp only [exec] at h
    split at h
    · cases h
      exact .finish m.registers ha pcAfter nextValue
    · cases h
  | assign reg value rest ih => exact ih ha h
  | readMem addr width rest ih =>
    simp only [exec] at h
    split at h
    · obtain ⟨r, hr⟩ := raiseException_eq_ok h
      cases hr
    · exact ih _ (ha _) h
  | writeMem addr width value rest ih =>
    simp only [exec] at h
    split at h
    · obtain ⟨r, hr⟩ := raiseException_eq_ok h
      cases hr
    · exact ih ha h
  | raise which badVAddr =>
    obtain ⟨r, hr⟩ := raiseException_eq_ok h
    cases hr
  | fail fault => cases h

theorem oneInstruction_wellFormed {m m' : Machine} (h : m.oneInstruction = .ok (.completed m')) :
    m'.registers.WellFormed :=
  exec_wellFormed (a := .readMem _ _ _)
    (fun raw => (Instruction.decode raw).execute_loadsGeneral m.registers) h

end Machine

/-! ## Events -/

namespace Kernel

variable {k k' : Kernel} {n : Next} {e : Event}

/-- The event is one of the machine: a user instruction leaves the registers
that `OneInstruction` leaves, and one that raises an exception has only made its
accesses. -/
def Simulated (k : Kernel) : Event → Prop
  | .instr _ registers => registers = k.registers ∨ ∃ s S m, k.machineTable = .ok (s, S) ∧
      (k.machine S).oneInstruction = .ok (.completed m) ∧ registers = m.registers
  | _ => True

/-- What an event leaves in the registers. -/
inductive RegisterStep (k : Kernel) : Event → Registers → Prop
  | instr {accesses : List Access} {registers : Registers} :
    RegisterStep k (.instr accesses registers) registers
  | kept {e : Event} : RegisterStep k e k.registers
  | raised {e : Event} {addr : BitVec 32} : RegisterStep k e (k.registers.raise addr)
  | trapped : RegisterStep k .trap (k.registers.raise 0).advance
  | result {e : Event} {value : BitVec 32} : RegisterStep k e (k.registers.write 2 value)
  | started {numPages : Nat} : RegisterStep k .create (.init numPages)

theorem terminate_registers (hi : k.Inv) (ha : k.AtHome) {r : Registers}
    (h : { k with registers := r }.terminate = .ok k') : k'.registers = r := by
  obtain ⟨T, hT, -⟩ := hi.running
  obtain ⟨s, hs, -⟩ := hi.procs.space hT
  rw [← ha.thread_eq] at hT
  obtain ⟨S, m, st, -, -, hk⟩ := terminate_eq_ok (k := { k with registers := r }) hT hs h
  rw [hk]

theorem act_registers (hi : k.Inv) (h : k.act e = .ok (k', n)) :
    k.RegisterStep e k'.registers := by
  cases acts_of_act h with
  | instr => exact .instr
  | tick => exact .kept
  | fault _ _ h1 =>
    obtain ⟨s, f, k1, -, hsel, hbranch⟩ := pageFault_cases h1
    have hregs : k1.registers = k.registers.raise _ :=
      (congrArg Kernel.registers (selectPage_memoryOnly hsel).1.rest :)
    rcases hbranch with ⟨-, rfl⟩ | ⟨-, hfill⟩
    · change k.RegisterStep _ k1.registers
      rw [hregs]
      exact .raised
    · rw [show k'.registers = k1.registers from
        (congrArg Kernel.registers (fillPage_memoryOnly hfill).rest :), hregs]
      exact .raised
  | lock h =>
    obtain ⟨v, f, c, -, ⟨rfl, -⟩ | ⟨rfl, -⟩⟩ := lock_cases h
    · exact .kept
    · exact .kept
  | load h =>
    obtain ⟨v, f, c, s, k1, -, -, hfill, rfl, -⟩ := load_cases h
    obtain ⟨st, r, l, hV⟩ := k1.lockV_eq f
    have hregs : k1.registers = k.registers :=
      (congrArg Kernel.registers (fillPage_memoryOnly hfill).rest :)
    rw [hV]
    change k.RegisterStep _ k1.registers
    rw [hregs]
    exact .kept
  | trap => exact .trapped
  | copy _ h1 =>
    rw [show k'.registers = k.registers from
      (congrArg Kernel.registers (access_memoryOnly h1).rest :)]
    exact .kept
  | @ret result _ =>
    cases result with
    | none => exact .kept
    | some value => exact .result
  | exec hc h =>
    obtain ⟨hi', ha'⟩ := hi.back hc
    rcases exec_cases hi' ha' h with ⟨-, rfl, -⟩ | ⟨x, k1, -, hnew, -, hk'⟩
    · exact .kept
    · obtain ⟨-, -, -, -, -, -, -, hregs⟩ := exec_spawned (r := BitVec.ofNat 32 k.threadID) hnew
      rw [hk']
      exact hregs ▸ .result
  | join hc h =>
    obtain ⟨hi', ha'⟩ := hi.back hc
    rcases join_target hi' ha' h with ⟨-, rfl, -⟩ | ⟨c, -, -, rfl⟩
    · exact .kept
    · exact .kept
  | yield => exact .kept
  | exit hc h1 =>
    rw [terminate_registers hi (hi.atHome_of_atUser (.inr hc)) h1]
    exact .kept
  | fatal hu h1 =>
    rw [terminate_registers hi (hi.atHome_of_atUser hu) h1]
    exact .raised
  | enable => exact .kept
  | create _ h1 =>
    obtain ⟨s, S, -, -, hk, -⟩ := create_eq_ok h1
    rw [hk]
    exact .started

theorem RegisterStep.wellFormed {r : Registers} (h : k.RegisterStep e r) (hsim : k.Simulated e)
    (hk : k.registers.WellFormed) : r.WellFormed := by
  cases h with
  | instr =>
    rcases hsim with rfl | ⟨s, S, m, -, hone, rfl⟩
    · exact hk
    · exact Machine.oneInstruction_wellFormed hone
  | kept => exact hk
  | raised => exact Registers.wellFormed_raise _ _
  | trapped => exact (Registers.wellFormed_raise _ _).advance
  | result => exact hk.write (by decide) (by decide) _
  | started => exact Registers.wellFormed_init _

/-- A new thread does nothing but get to its program. -/
theorem act_of_booting (hb : k.here.Booting) (h : k.act e = .ok (k', n)) :
    k'.here.Booting ∨ e = .create := by
  cases acts_of_act h with
  | enable => exact .inl (.inr (Function.update_self _ _ _))
  | create => exact .inr rfl
  | tick => exact .inl hb
  | instr hu | trap hu => exact absurd (hu ▸ hb) not_booting_user
  | fault hu | fatal hu =>
    rcases hu with hu | hu
    · exact absurd (hu ▸ hb) not_booting_user
    · exact absurd (hu ▸ hb) not_booting_call
  | copy hc | ret hc | exec hc | join hc | yield hc | exit hc =>
    exact absurd (hc ▸ hb) not_booting_call
  | lock h =>
    obtain ⟨v, f, c, hhere, -⟩ := lock_cases h
    rw [hhere] at hb
    rcases hb with hb | hb <;> cases hb
  | load h =>
    obtain ⟨v, f, c, s, k1, hhere, -⟩ := load_cases h
    rw [hhere] at hb
    rcases hb with hb | hb <;> cases hb

theorem act_wellFormed (hi : k.Inv) (hsim : k.Simulated e) (h : k.act e = .ok (k', n))
    (hk : ¬ k.here.Booting → k.registers.WellFormed) (hb : ¬ k'.here.Booting) :
    k'.registers.WellFormed := by
  by_cases hbk : k.here.Booting
  · rcases act_of_booting hbk h with hb' | rfl
    · exact absurd hb' hb
    · cases acts_of_act h with
      | create _ h1 =>
        obtain ⟨s, S, -, -, hk, -⟩ := create_eq_ok h1
        rw [hk]
        exact Registers.wellFormed_init _
  · exact (act_registers hi h).wellFormed hsim (hk hbk)

theorem step_wellFormed (hi : k.Inv) (hp : k.Holding fun _ => Registers.WellFormed)
    (hsim : k.Simulated e) (h : k.step e = .ok k') :
    k'.Holding fun _ => Registers.WellFormed := by
  obtain ⟨⟨k1, n⟩, hact, hdisp⟩ := bind_eq_ok.mp h
  obtain ⟨T, hT, -⟩ := hi.running
  have hrun := act_wellFormed hi hsim hact fun hb => hp.running (by rw [hT]; rfl) hb
  exact (hp.act hi hact hrun fun _ _ _ hr => hr).dispatch
    (fun _ r _ => Registers.wellFormed_flush r) (act_paused hi hact) hdisp

/-- Over any run of user threads, with their instructions, whatever the words,
their exceptions and system calls, timer interrupts and context switches,
register 0 is zero and the pending load is for a general register whenever the
running thread is past its start; `DelayedLoad` then writes no special register
but the slot itself. -/
theorem loadSlot_wellFormed {c : Config} {k0 : Kernel} {es : List Event}
    (hboot : boot c = .ok k0) (hsim : Guarded step Simulated k0 es) (hrun : Run step k0 es k)
    (hb : ¬ k.here.Booting) :
    k.registers 0 = 0 ∧ (k.registers loadReg).toNat < numGPRegs ∧
      ∀ nextReg nextValue x, Registers.Special x →
        k.registers.delayedLoad nextReg nextValue x = k.registers x := by
  have h0 : k0.Inv ∧ k0.Holding fun _ => Registers.WellFormed := by
    refine ⟨boot_inv hboot, boot_holding hboot ?_⟩
    obtain ⟨x, numPages, -, -, hk⟩ := boot_eq_ok hboot
    rw [hk]
    exact Registers.wellFormed_init numPages
  have hinv := hrun.guarded_inv (I := fun k => k.Inv ∧ k.Holding fun _ => Registers.WellFormed)
    (fun k e k' ⟨hi, hp⟩ hs h => ⟨step_inv hi h, step_wellFormed hi hp hs h⟩) hsim h0
  obtain ⟨T, hT, -⟩ := hinv.1.running
  have hw := hinv.2.running (by rw [hT]; rfl) hb
  exact ⟨hw.zero, hw.slot, fun nextReg nextValue x hx => hw.delayedLoad_special hx _ _⟩

/-- `OneInstruction` completes in this state. -/
def completes (k : Kernel) : Bool :=
  match k.machineTable with
  | .ok (_, S) =>
    match (k.machine S).oneInstruction with
    | .ok (.completed _) => true
    | _ => false
  | .error _ => false

theorem completes_eq_true (h : k.completes = true) :
    ∃ s S m, k.machineTable = .ok (s, S) ∧ (k.machine S).oneInstruction = .ok (.completed m) := by
  unfold completes at h
  split at h
  · rename_i s S ht
    split at h
    · rename_i m hm
      exact ⟨s, S, m, ht, hm⟩
    · cases h
  · cases h

/-- The sample program's first instruction, `lw r4, 0(r0)`, behind the page fault
of its fetch. -/
theorem loadSlot_wellFormed_first : ∃ (k0 k : Kernel) (accesses : List Access) (r : Registers),
    boot (.sample 2) = .ok k0 ∧ Run step k0 [.fault 0 0, .instr accesses r] k ∧
      k.registers = r ∧ k.registers 0 = 0 ∧ (k.registers loadReg).toNat < numGPRegs := by
  have hdemo : (Config.sample 2).reaches [.fault 0 0]
      (fun k => k.here = .user ∧ k.completes = true) = true := by decide +kernel
  obtain ⟨k0, k1, hboot, hrun, hp⟩ := Config.reaches_iff.mp hdemo
  obtain ⟨hu, hc⟩ := of_decide_eq_true hp
  obtain ⟨s, S, m, ht, hm⟩ := completes_eq_true hc
  obtain ⟨accesses, k, S', hact, -, hmachine⟩ := act_of_completed hu ht hm
  have hstep : k1.step (.instr accesses m.registers) = .ok k := bind_eq_ok.mpr ⟨_, hact, rfl⟩
  have hrun' : Run step k0 [.fault 0 0, .instr accesses m.registers] k :=
    hrun.append (run_singleton.mpr hstep)
  have hsim : Guarded step Simulated k0 [.fault 0 0, .instr accesses m.registers] :=
    .cons (run_singleton.mp hrun) trivial
      ⟨.inr ⟨s, S, m, ht, hm, rfl⟩, fun _ _ => trivial⟩
  have hhere : ¬ k.here.Booting := by
    cases acts_of_act hact with
    | @instr _ _ k2 _ h1 =>
      have hsame : k2.here = k1.here := (congrArg Kernel.here (accesses_memoryOnly h1).rest :)
      change ¬ k2.here.Booting
      rw [hsame, hu]
      exact not_booting_user
  have hw := loadSlot_wellFormed hboot hsim hrun' hhere
  exact ⟨k0, k, accesses, m.registers, hboot, hrun', congrArg Machine.registers hmachine, hw.1,
    hw.2.1⟩

end Kernel
end Nachos

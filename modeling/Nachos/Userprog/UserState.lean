import Nachos.Userprog.Effects

/-! Whose registers the machine holds. `Traced` runs the kernel and notes, for
every thread, the registers as its own code last left them. A thread that is
switched away finds them again when it goes on, except that an interrupt of the
timer completes its pending load. -/

namespace Nachos
open Lib

/-- The kernel, and the registers each thread's own code last left. -/
structure Traced where
  kernel : Kernel
  left : ThreadPtr → Registers

namespace Traced

/-- The record after an event of thread `t` that ends with registers `r`:
everything but the tick behind an instruction is the thread's own doing. -/
def leave (left : ThreadPtr → Registers) (t : ThreadPtr) (r : Registers) :
    Event → ThreadPtr → Registers
  | .tick _ => left
  | _ => Function.update left t r

def step (g : Traced) (e : Event) : Except Fault Traced := do
  let r ← g.kernel.act e
  let k ← r.1.dispatch r.2
  .ok ⟨k, leave g.left g.kernel.currentThread r.1.registers e⟩

/-- The trace begins with what `InitRegisters` left. -/
def start (k : Kernel) : Traced := ⟨k, fun _ => k.registers⟩

/-- The record does not influence the kernel. -/
theorem step_kernel {g g' : Traced} {e : Event} (h : g.step e = .ok g') :
    g.kernel.step e = .ok g'.kernel := by
  unfold step at h
  obtain ⟨r, hact, h⟩ := bind_eq_ok.mp h
  obtain ⟨k, hdisp, h⟩ := bind_eq_ok.mp h
  cases h
  exact bind_eq_ok.mpr ⟨r, hact, hdisp⟩

/-- Every run of the kernel can be traced. -/
theorem run_of_kernel {k k' : Kernel} {es : List Event} (h : Run Kernel.step k es k')
    (left : ThreadPtr → Registers) : ∃ left', Run step ⟨k, left⟩ es ⟨k', left'⟩ := by
  induction h generalizing left with
  | nil => exact ⟨left, .nil⟩
  | @cons k e k1 es k' hs _ ih =>
    obtain ⟨r, hact, hdisp⟩ := bind_eq_ok.mp hs
    obtain ⟨g1, hg⟩ : ∃ left1, Traced.step ⟨k, left⟩ e = .ok ⟨k1, left1⟩ :=
      ⟨_, bind_eq_ok.mpr ⟨r, hact, bind_eq_ok.mpr ⟨k1, hdisp, rfl⟩⟩⟩
    obtain ⟨left', hr⟩ := ih g1
    exact ⟨left', .cons hg hr⟩

end Traced

namespace Registers

/-- The same registers, the pending load perhaps completed. -/
def Resumes (r left : Registers) : Prop := r = left ∨ r = left.flush

theorem Resumes.flush {r left : Registers} (h : r.Resumes left) : r.flush.Resumes left := by
  rcases h with rfl | rfl
  · exact .inr rfl
  · exact .inr left.flush_flush

end Registers

namespace Kernel

/-- Every live thread that has reached its program has the registers it left:
the running thread in the machine, the others in their saved user state. -/
structure Private (k : Kernel) (left : ThreadPtr → Registers) : Prop where
  running : (k.live k.currentThread).isSome → ¬ k.here.Booting →
    k.registers.Resumes (left k.currentThread)
  saved : ∀ t, t ≠ k.currentThread → (k.live t).isSome → ¬ (k.cont t).Booting →
    (k.userRegisters t).Resumes (left t)

variable {k k' : Kernel} {n : Next} {e : Event} {left : ThreadPtr → Registers}

/-- What an event does to the threads that are not running: at most it makes a
new one. -/
theorem act_others (hi : k.Inv) (h : k.act e = .ok (k', n)) :
    k'.currentThread = k.currentThread ∧ k'.userRegisters = k.userRegisters ∧
      ∀ t, t ≠ k.currentThread → (k'.live t).isSome → ¬ (k'.cont t).Booting →
        (k.live t).isSome ∧ k'.cont t = k.cont t := by
  obtain ⟨T, hT, hTj⟩ := hi.running
  cases act_acted hi h with
  | moved hl =>
    refine ⟨(congrArg Kernel.currentThread hl.rest :), (congrArg Kernel.userRegisters hl.rest :),
      fun t ht hlive _ => ⟨?_, hl.conts t ht⟩⟩
    rwa [hl.live] at hlive
  | @built _ _ _ x k1 _ hnew =>
    have hp : (k.goTo .user).Processes :=
      hi.procs.transfer (.of_eq rfl rfl rfl rfl rfl rfl fun _ => rfl)
    obtain ⟨hs, hcont, -, -, hcur, -⟩ := exec_spawned (r := BitVec.ofNat 32 k.threadID) hnew
    refine ⟨hcur, ?_, fun t ht hlive hb => ?_⟩
    · obtain ⟨_, _, _, -, -, -, -, rfl⟩ := newAddrSpace_eq_ok hnew
      rfl
    · have hcont' := congrFun hcont t
      have hlive' := hs.live hp t
      by_cases hnew : t = (k.goTo .user).nextThread
      · rw [Function.update_apply, if_pos hnew] at hcont'
        exact absurd (.inl hcont') hb
      · rw [Function.update_apply, if_neg hnew] at hcont'
        rw [if_neg hnew] at hlive'
        exact ⟨hlive' ▸ hlive, hcont'.trans (Function.update_of_ne ht _ _)⟩
  | @joined c =>
    refine ⟨rfl, rfl, fun t ht hlive _ => ⟨?_, Function.update_of_ne ht _ _⟩⟩
    have hmap := live_map (k.goTo .user) (joinEffect k.currentThread c) t
    have hsome := (congrArg Option.isSome hmap).symm.trans hlive
    rwa [Option.isSome_map] at hsome
  | @ended _ r _ _ ha hterm =>
    have hr : { k with registers := r }.Inv := hi.registers r (by simp)
    obtain ⟨-, hlive'⟩ := hr.procs.terminate hT hTj ha.dying hterm
    obtain ⟨s, hs, -⟩ := hi.procs.space hT
    rw [← ha.thread_eq] at hT
    obtain ⟨S, m, st, -, -, hk⟩ := terminate_eq_ok (k := { k with registers := r }) hT hs hterm
    refine ⟨by rw [hk], by rw [hk], fun t ht hlive _ => ⟨?_, by rw [hk]⟩⟩
    rw [hlive', if_neg ht, Option.isSome_map] at hlive
    exact hlive
  | created hc =>
    obtain ⟨_, _, -, -, hk, hl, -⟩ := create_eq_ok hc
    have hcur := congrArg Kernel.currentThread hk
    refine ⟨hcur, (congrArg Kernel.userRegisters hk :), fun t ht hlive _ => ⟨?_, ?_⟩⟩
    · rw [← hl]; exact hlive
    · rw [← show _ = k.cont from (congrArg Kernel.cont hk :)]
      exact Function.update_of_ne (hcur ▸ ht) _ _

/-- Every live thread that has reached its program has registers with `P`: the
running thread in the machine, the others in their saved user state. -/
structure Holding (k : Kernel) (P : ThreadPtr → Registers → Prop) : Prop where
  running : (k.live k.currentThread).isSome → ¬ k.here.Booting → P k.currentThread k.registers
  saved : ∀ t, t ≠ k.currentThread → (k.live t).isSome → ¬ (k.cont t).Booting →
    P t (k.userRegisters t)

/-- A context switch saves the registers of the thread it leaves and brings
back those of the thread it goes to; a tick before it may flush them. -/
theorem Holding.dispatch {P : ThreadPtr → Registers → Prop} (hp : k.Holding P)
    (hflush : ∀ t r, P t r → P t r.flush) (hs : k.Paused n) (h : k.dispatch n = .ok k') :
    k'.Holding P := by
  rcases dispatch_cases h with ⟨-, rfl | ⟨-, rfl⟩⟩ | ⟨next, rest, regs, st, -, hregs, hw⟩
  · exact hp
  · exact ⟨fun hl hb => hflush _ _ (hp.running hl hb), hp.saved⟩
  · have hcont : k'.cont = k.cont := (congrArg Kernel.cont hw.rest :)
    have hlive : k'.live = k.live := hw.live
    -- the old thread's registers go to its saved state, flushed or not
    have hold (hl : (k.live k.currentThread).isSome) (hb : ¬ k.here.Booting) :
        P k.currentThread regs := by
      rcases hregs with ⟨-, rfl⟩ | ⟨-, rfl⟩
      · exact hflush _ _ (hp.running hl hb)
      · exact hp.running hl hb
    have hsaved (t : ThreadPtr) (hl : (k.live t).isSome) (hb : ¬ (k.cont t).Booting) :
        P t (k'.userRegisters t) := by
      by_cases ht : t = k.currentThread
      · subst ht
        obtain ⟨T, hT⟩ := Option.isSome_iff_exists.mp hl
        obtain ⟨s, hsp, -⟩ := hs.procs.space hT
        have hspace : k.spaceOf k.currentThread = some s := (spaceOf_of_live hT).trans hsp
        have hself : k'.userRegisters k.currentThread = regs :=
          (congrFun hw.saved k.currentThread).trans (saveState_self hspace)
        rw [hself]
        exact hold hl hb
      · have hother : k'.userRegisters t = k.userRegisters t :=
          (congrFun hw.saved t).trans (saveState_of_ne ht)
        rw [hother]
        exact hp.saved t ht hl hb
    refine ⟨fun hl hb => ?_, fun t _ hl hb => hsaved t (hlive ▸ hl) (hcont ▸ hb)⟩
    rw [hw.current, hlive] at hl
    rw [here, hcont, hw.current] at hb
    obtain ⟨T, hT⟩ := Option.isSome_iff_exists.mp hl
    obtain ⟨s, hsp, -⟩ := hs.procs.space hT
    have hroot : k.cont next ≠ .threadRoot := fun he => hb (.inl he)
    obtain ⟨hrestored, -⟩ :=
      (hw.resumed hroot).2 s ((spaceOf_of_live hT).trans hsp) (live_eq_some hT).1
    rw [hrestored, ← hw.saved, hw.current]
    exact hsaved next hl hb

/-- An event changes no saved registers, and brings no other thread to its
program. -/
theorem Holding.act {P Q : ThreadPtr → Registers → Prop} (hp : k.Holding P) (hi : k.Inv)
    (h : k.act e = .ok (k', n)) (hrun : ¬ k'.here.Booting → Q k.currentThread k'.registers)
    (hothers : ∀ t r, t ≠ k.currentThread → P t r → Q t r) : k'.Holding Q := by
  obtain ⟨hcur, hregs, hback⟩ := act_others hi h
  refine ⟨fun _ hb => by rw [hcur]; exact hrun hb, fun t ht hlive hb => ?_⟩
  rw [hcur] at ht
  obtain ⟨hlive', hcont⟩ := hback t ht hlive hb
  rw [hregs]
  exact hothers t _ ht (hp.saved t ht hlive' (hcont ▸ hb))

theorem private_iff : k.Private left ↔ k.Holding fun t r => r.Resumes (left t) :=
  ⟨fun h => ⟨h.running, h.saved⟩, fun h => ⟨h.running, h.saved⟩⟩

/-- The running thread's code may leave what it likes in the registers. -/
theorem Private.act (hp : k.Private left) (hi : k.Inv) (h : k.act e = .ok (k', n)) :
    k'.Private (Traced.leave left k.currentThread k'.registers e) := by
  rw [private_iff] at hp ⊢
  have hown : k'.Holding fun t r =>
      r.Resumes (Function.update left k.currentThread k'.registers t) := by
    refine hp.act hi h (fun _ => .inl ?_) fun t r ht hr => ?_
    · rw [Function.update_self]
    · rw [Function.update_of_ne ht]
      exact hr
  cases e with
  | tick fire =>
    obtain ⟨hu, h⟩ := ite_error_eq_ok.mp h
    cases h
    exact hp
  | _ => exact hown

theorem Private.dispatch (hp : k.Private left) (hs : k.Paused n) (h : k.dispatch n = .ok k') :
    k'.Private left :=
  private_iff.mpr ((private_iff.mp hp).dispatch (fun _ _ => Registers.Resumes.flush) hs h)

/-- After the start the first thread is the only one. -/
theorem boot_holding {c : Config} {k0 : Kernel} (hboot : boot c = .ok k0)
    {P : ThreadPtr → Registers → Prop} (h : P k0.currentThread k0.registers) : k0.Holding P := by
  refine ⟨fun _ _ => h, fun t ht hl => ?_⟩
  obtain ⟨x, numPages, -, -, hk⟩ := boot_eq_ok hboot
  have ht0 : t ≠ 0 := by
    intro he
    apply ht
    rw [he, hk]
    rfl
  rw [hk] at hl
  simp [Kernel.live, Function.update_of_ne ht0] at hl

/-- When a user thread goes on with its program, whatever was dispatched in the
meantime, the registers are those its own code last left, the pending load
perhaps completed, and the machine translates through its own page table. -/
theorem registers_private {c : Config} {k0 : Kernel} {es : List Event} {g : Traced}
    (hboot : boot c = .ok k0) (hrun : Run Traced.step (.start k0) es g)
    (hb : ¬ g.kernel.here.Booting) :
    g.kernel.registers.Resumes (g.left g.kernel.currentThread) ∧
      ∃ s S, g.kernel.spaceOf g.kernel.currentThread = some s ∧ g.kernel.pageTable = some s ∧
        g.kernel.space s = some S ∧ g.kernel.pageTableSize = S.numPages := by
  have h0 : (Traced.start k0).kernel.Inv ∧
      (Traced.start k0).kernel.Private (Traced.start k0).left :=
    ⟨boot_inv hboot, private_iff.mpr (boot_holding hboot (.inl rfl))⟩
  have hinv : g.kernel.Inv ∧ g.kernel.Private g.left := by
    refine hrun.inv (I := fun g => g.kernel.Inv ∧ g.kernel.Private g.left) ?_ h0
    intro g e g' ⟨hi, hp⟩ hs
    refine ⟨step_inv hi (Traced.step_kernel hs), ?_⟩
    unfold Traced.step at hs
    obtain ⟨⟨k1, n⟩, hact, hs⟩ := bind_eq_ok.mp hs
    obtain ⟨k', hdisp, hs⟩ := bind_eq_ok.mp hs
    cases hs
    exact (hp.act hi hact).dispatch (act_paused hi hact) hdisp
  obtain ⟨T, hT, -⟩ := hinv.1.running
  exact ⟨hinv.2.running (by rw [hT]; rfl) hb, (hinv.1.atHome hb).table⟩

/-- The sample program's first page fault, and its first instruction: a load
into register 4, which stays pending. -/
def loadWordSample : List Event :=
  [.fault 0 0, .lock false, .load false, .instr [.read 0 .word, .read 0 .word]
    ((((((Registers.init 46).raise 0).advance).write prevPCReg 0).write loadReg 4).write
      loadValueReg 0x8c040000)]

/-- The first process starts another one and is interrupted; the second one fills its
registers and is interrupted as well. -/
def switchSample : List Event :=
  loadWordSample ++ execSample ++ [.tick true, .enable false, .create,
    .instr [] (fun _ => 9), .tick true]

theorem registers_private_sample : ∃ (k0 : Kernel) (g : Traced), boot (.sample 1) = .ok k0 ∧
    Run Traced.step (.start k0) switchSample g ∧ g.kernel.currentThread = 0 ∧
    g.left 1 16 = 9 ∧ g.kernel.registers 16 ≠ 9 ∧ g.kernel.registers.Resumes (g.left 0) := by
  have hdemo : (Config.sample 1).boots (fun k0 => continues Traced.step (.start k0)
      switchSample fun g => g.kernel.here = .user ∧ g.kernel.currentThread = 0 ∧
        g.left 1 16 = 9 ∧ g.kernel.registers 16 ≠ 9) = true := by decide +kernel
  obtain ⟨k0, hboot, hdemo⟩ := Config.boots_iff.mp hdemo
  obtain ⟨g, hrun, hp⟩ := continues_iff.mp hdemo
  obtain ⟨hu, hcur, hother, hne⟩ := of_decide_eq_true hp
  have hb : ¬ g.kernel.here.Booting := by
    rw [hu]
    exact not_booting_user
  have hresumes := (registers_private hboot hrun hb).1
  rw [hcur] at hresumes
  exact ⟨k0, g, hboot, hrun, hcur, hother, hne, hresumes⟩

/-- The timer interrupt behind the load: the thread goes on with the load
completed, which its own instruction had left pending. -/
theorem pending_load_completed : ∃ (k0 : Kernel) (g : Traced), boot (.sample 1) = .ok k0 ∧
    Run Traced.step (.start k0) (loadWordSample ++ [.tick true]) g ∧ g.kernel.here = .user ∧
    g.kernel.registers ≠ g.left g.kernel.currentThread := by
  have hdemo : (Config.sample 1).boots (fun k0 => continues Traced.step (.start k0)
      (loadWordSample ++ [.tick true]) fun g => g.kernel.here = .user ∧
        g.kernel.registers loadReg ≠ g.left g.kernel.currentThread loadReg) = true := by
    decide +kernel
  obtain ⟨k0, hboot, hdemo⟩ := Config.boots_iff.mp hdemo
  obtain ⟨g, hrun, hp⟩ := continues_iff.mp hdemo
  obtain ⟨hu, hne⟩ := of_decide_eq_true hp
  exact ⟨k0, g, hboot, hrun, hu, fun h => hne (by rw [h])⟩

end Kernel
end Nachos

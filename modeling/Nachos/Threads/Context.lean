import Mathlib.Data.Set.Insert
import Mathlib.Logic.Relation
import Nachos.Threads.Switch

/-! What the context switch is for (`Scheduler::Run` and switch.s). A thread that calls
`SWITCH` goes on behind the call when others have run meanwhile, as far as everybody
leaves the thread objects and stacks of the others alone; and a new thread comes to
`ThreadRoot`. The threads here are arbitrary code between their calls of `SWITCH`. -/

namespace Nachos.Switch
open Lib Reg

/-- The threads of a machine with one processor. `stack t` are the words of the stack
of `t`; that of the first thread is not allocated by `StackAllocate`. -/
structure State where
  cpu : Cpu
  currentThread : Word
  threads : Set Word
  stack : Word → Set Word

namespace State

/-- The words only `t` has a use for. -/
def own (s : State) (t : Word) : Set Word := area t ∪ s.stack t

/-- The current thread is at the start of `SWITCH(currentThread, next)`, on its stack. -/
structure Calls (s : State) (next : Word) : Prop where
  known : next ∈ s.threads
  ret_mem : s.cpu.reg esp ∈ s.stack s.currentThread
  old_mem : s.cpu.reg esp + 4#32 ∈ s.stack s.currentThread
  new_mem : s.cpu.reg esp + 8#32 ∈ s.stack s.currentThread
  old : s.cpu.mem (s.cpu.reg esp + 4#32) = s.currentThread
  new : s.cpu.mem (s.cpu.reg esp + 8#32) = next

/-- `t` and its stack can be placed there: nobody has a use for these words. -/
structure Free (s : State) (t stack : Word) : Prop where
  aligned : Aligned t
  stack_aligned : Aligned stack
  inner : Disjoint (area t) (stackWords stack)
  apart : ∀ u ∈ s.threads, Disjoint (area t ∪ stackWords stack) (s.own u)

def fork (s : State) (l : Labels) (t stack func arg : Word) : State :=
  { s with
    cpu := { s.cpu with mem := storeAll s.cpu.mem (stackAllocate l t stack func arg) }
    threads := insert t s.threads
    stack := Function.update s.stack t (stackWords stack) }

end State

/-- What happens on the processor. Of the code the current thread runs it is asked
only that it leaves the words of the other threads alone. -/
inductive Step (l : Labels) : State → State → Prop
  | work {s : State} (c : Cpu)
      (h : ∀ t ∈ s.threads, t ≠ s.currentThread → ∀ a ∈ s.own t, c.mem a = s.cpu.mem a) :
      Step l s { s with cpu := c }
  | fork {s : State} (t stack func arg : Word) (hnew : t ∉ s.threads) (h : s.Free t stack) :
      Step l s (s.fork l t stack func arg)
  | destroy {s : State} (t : Word) (h : t ≠ s.currentThread) :
      Step l s { s with threads := s.threads \ {t} }
  | run {s : State} (next : Word) (c : Cpu) (h : s.Calls next)
      (hc : s.cpu.exec switchCode = .ok c) :
      Step l s { s with cpu := c, currentThread := next }

/-- The invariant of the switching threads. -/
structure State.Inv (s : State) : Prop where
  current : s.currentThread ∈ s.threads
  aligned : ∀ t ∈ s.threads, ∀ a ∈ s.own t, Aligned a
  inner : ∀ t ∈ s.threads, Disjoint (area t) (s.stack t)
  apart : ∀ t ∈ s.threads, ∀ u ∈ s.threads, t ≠ u → Disjoint (s.own t) (s.own u)
  parked : ∀ t ∈ s.threads, t ≠ s.currentThread →
    s.cpu.mem (t + offset esp) ∈ s.stack t ∧ s.cpu.mem (t + offset esp) + 4#32 ∈ s.stack t

namespace State.Inv

variable {l : Labels} {s s' : State} {t next : Word}

theorem aligned_thread (hi : s.Inv) (ht : t ∈ s.threads) : Aligned t := by
  have := hi.aligned t ht (t + offset esp) (.inl (mem_area_reg t esp))
  simpa [offset] using this

/-- Saving the current thread changes its own object and nothing else. -/
theorem afterSave_frame {a : Word} (h : a ∉ area s.currentThread) :
    (afterSave s.cpu s.currentThread).mem a = s.cpu.mem a := saved_of_not_mem h

/-- The stack pointer `next` will have lies in its stack, also when it is the caller. -/
theorem next_sp (hi : s.Inv) (hc : s.Calls next) :
    (afterSave s.cpu s.currentThread).mem (next + offset esp) ∈ s.stack next ∧
    (afterSave s.cpu s.currentThread).mem (next + offset esp) + 4#32 ∈ s.stack next := by
  by_cases e : next = s.currentThread
  · subst e
    simp only [afterSave, saved_reg]
    exact ⟨hc.ret_mem, hc.old_mem⟩
  · have hd := hi.apart next hc.known _ hi.current e
    rw [afterSave_frame fun h =>
      Set.disjoint_left.mp hd (.inl (mem_area_reg next esp)) (.inl h)]
    exact hi.parked next hc.known e

/-- A call of `SWITCH` in a sound state never faults. -/
theorem exec_switch (hi : s.Inv) (hc : s.Calls next) :
    s.cpu.exec switchCode = .ok (switched s.cpu s.currentThread next) := by
  have hst := hi.inner _ hi.current
  refine switchCode_spec (hi.aligned _ hi.current _ (.inr hc.ret_mem))
    (hi.aligned_thread hi.current) (hi.aligned_thread hc.known) hc.old hc.new
    (fun h => Set.disjoint_left.mp hst h hc.ret_mem)
    (fun h => Set.disjoint_left.mp hst h hc.new_mem)
    (hi.aligned next hc.known _ (.inr (hi.next_sp hc).1))

/-- What a switch does to memory: the caller's object is filled, and one word of the
stack of the thread that goes on is overwritten. -/
theorem switched_frame (hi : s.Inv) (hc : s.Calls next) {a : Word} (hu : t ∈ s.threads)
    (ht : t ≠ next) (ha : a ∈ s.own t) :
    (switched s.cpu s.currentThread next).mem a =
      (afterSave s.cpu s.currentThread).mem a := by
  refine Function.update_of_ne ?_ ..
  rintro rfl
  exact Set.disjoint_left.mp (hi.apart t hu next hc.known ht) ha (.inr (hi.next_sp hc).2)

theorem not_mem_area_current (hi : s.Inv) (ht : t ∈ s.threads) (hne : t ≠ s.currentThread)
    {a : Word} (ha : a ∈ s.own t) : a ∉ area s.currentThread := fun h =>
  Set.disjoint_left.mp (hi.apart t ht _ hi.current hne) ha (.inl h)

end State.Inv

theorem State.mem_fork (s : State) (l : Labels) (t stack func arg : Word) :
    (s.fork l t stack func arg).cpu.mem =
      storeAll s.cpu.mem (stackAllocate l t stack func arg) := rfl

theorem State.own_fork_self (s : State) (l : Labels) (t stack func arg : Word) :
    (s.fork l t stack func arg).own t = area t ∪ stackWords stack := by
  simp [own, fork]

theorem State.own_fork_of_ne (s : State) (l : Labels) {t u : Word} (h : u ≠ t)
    (stack func arg : Word) : (s.fork l t stack func arg).own u = s.own u := by
  simp [own, fork, h]

section Steps

variable {l : Labels} {s s' : State} {t : Word}

/-- A step leaves the stack of every thread where it is. -/
theorem Step.stack_eq (h : Step l s s') (ht : t ∈ s.threads) : s'.stack t = s.stack t := by
  cases h with
  | fork u stack func arg hnew hfree =>
    have hne : t ≠ u := by
      rintro rfl
      exact hnew ht
    exact Function.update_of_ne hne ..
  | work | destroy | run => rfl

/-- A step in which `t` is not involved changes none of its words. -/
theorem Step.keeps (h : Step l s s') (hi : s.Inv) (ht : t ∈ s.threads)
    (hne : t ≠ s.currentThread) (hne' : t ≠ s'.currentThread) {a : Word} (ha : a ∈ s.own t) :
    s'.cpu.mem a = s.cpu.mem a := by
  cases h with
  | work c hc => exact hc t ht hne a ha
  | destroy u hu => rfl
  | fork u stack func arg hnew hfree =>
    have hd := Set.disjoint_right.mp (hfree.apart t ht) ha
    exact stackAllocate_frame (fun h => hd (.inl h)) (fun h => hd (.inr h))
  | run next c hc he =>
    rw [hi.exec_switch hc] at he
    cases he
    rw [hi.switched_frame hc ht hne' ha]
    exact State.Inv.afterSave_frame (hi.not_mem_area_current ht hne ha)

theorem Step.inv (h : Step l s s') (hi : s.Inv) : s'.Inv := by
  -- What a thread that takes no part has saved is as it was.
  have hparked : ∀ u ∈ s.threads, u ≠ s.currentThread → u ≠ s'.currentThread →
      s'.cpu.mem (u + offset esp) ∈ s'.stack u ∧
      s'.cpu.mem (u + offset esp) + 4#32 ∈ s'.stack u := by
    intro u hu hne hne'
    rw [h.keeps hi hu hne hne' (.inl (mem_area_reg u esp)), h.stack_eq hu]
    exact hi.parked u hu hne
  cases h with
  | work c hc =>
    exact ⟨hi.current, hi.aligned, hi.inner, hi.apart, fun u hu hne => hparked u hu hne hne⟩
  | destroy t ht =>
    refine ⟨⟨hi.current, fun e => ht e.symm⟩, fun u hu => hi.aligned u hu.1,
      fun u hu => hi.inner u hu.1, fun u hu v hv => hi.apart u hu.1 v hv.1, ?_⟩
    exact fun u hu hne => hparked u hu.1 hne hne
  | run next c hc he =>
    rw [hi.exec_switch hc] at he
    cases he
    refine ⟨hc.known, hi.aligned, hi.inner, hi.apart, fun u hu hne => ?_⟩
    by_cases hu' : u = s.currentThread
    · subst hu'
      have hm := hi.switched_frame hc hu hne (.inl (mem_area_reg s.currentThread esp))
      simp only [hm, afterSave, saved_reg]
      exact ⟨hc.ret_mem, hc.old_mem⟩
    · exact hparked u hu hu' hne
  | fork t stack func arg hnew hfree =>
    have hcur : s.currentThread ≠ t := fun e => hnew (e ▸ hi.current)
    have hold : ∀ u ∈ s.threads, u ≠ t := fun u hu e => hnew (e ▸ hu)
    refine ⟨.inr hi.current, ?_, ?_, ?_, ?_⟩
    · rintro u (rfl | hu) a ha
      · rw [State.own_fork_self] at ha
        obtain ha | ha := ha
        · exact aligned_of_mem_area hfree.aligned ha
        · exact aligned_of_mem_stackWords hfree.stack_aligned ha
      · rw [State.own_fork_of_ne s l (hold u hu)] at ha
        exact hi.aligned u hu a ha
    · rintro u (rfl | hu)
      · simpa [State.fork] using hfree.inner
      · simpa [State.fork, hold u hu] using hi.inner u hu
    · rintro u (rfl | hu) v (rfl | hv) hne
      · exact absurd rfl hne
      · rw [State.own_fork_self, State.own_fork_of_ne s l (hold v hv)]
        exact hfree.apart v hv
      · rw [State.own_fork_self, State.own_fork_of_ne s l (hold u hu)]
        exact (hfree.apart u hu).symm
      · rw [State.own_fork_of_ne s l (hold u hu), State.own_fork_of_ne s l (hold v hv)]
        exact hi.apart u hu v hv hne
    · rintro u (rfl | hu) hne
      · have hm : (s.fork l u stack func arg).cpu.mem (u + offset esp) = stackTop stack :=
          (stackAllocate_spec l func arg s.cpu.mem hfree.inner).1
        have hst : (s.fork l u stack func arg).stack u = stackWords stack := by
          simp [State.fork]
        rw [hst, hm]
        exact ⟨stackTop_mem stack, stackTop_add_four_mem stack⟩
      · exact hparked u hu hne hne

/-- Steps during which the thread `t` waits: it neither runs nor is destroyed. -/
def Aside (l : Labels) (t : Word) (s s' : State) : Prop :=
  Step l s s' ∧ t ≠ s.currentThread ∧ t ≠ s'.currentThread ∧ t ∈ s.threads

theorem Aside.ne_current (h : Relation.ReflTransGen (Aside l t) s s')
    (hne : t ≠ s.currentThread) : t ≠ s'.currentThread := by
  cases h with
  | refl => exact hne
  | tail _ hstep => exact hstep.2.2.1

/-- While `t` waits, all its words stay as they are. -/
theorem Aside.keeps (h : Relation.ReflTransGen (Aside l t) s s') (hi : s.Inv) :
    s'.Inv ∧ s'.stack t = s.stack t ∧ ∀ a ∈ s.own t, s'.cpu.mem a = s.cpu.mem a := by
  induction h with
  | refl => exact ⟨hi, rfl, fun _ _ => rfl⟩
  | @tail b _ _ hstep ih =>
    obtain ⟨hs, hne, hne', ht⟩ := hstep
    obtain ⟨hi', hst, hm⟩ := ih
    refine ⟨hs.inv hi', (hs.stack_eq ht).trans hst, fun a ha => ?_⟩
    have ha' : a ∈ b.own t := by
      rw [State.own, hst]
      exact ha
    exact (hs.keeps hi' ht hne hne' ha').trans (hm a ha)

end Steps

/-! ## Coming back from `SWITCH` -/

/-- `SWITCH` as its caller sees it: it returns with the caller's registers and stack.
Of the two arguments on the stack the first is lost. -/
structure Returned (c : Cpu) (stack : Set Word) (c' : Cpu) : Prop where
  eip : c'.eip = c.mem (c.reg esp)
  esp : c'.reg esp = c.reg esp + 4#32
  reg : ∀ r ≠ Reg.esp, c'.reg r = c.reg r
  stack : ∀ a ∈ stack, a ≠ c.reg Reg.esp + 4#32 → c'.mem a = c.mem a
  lost : c'.mem (c.reg Reg.esp + 4#32) = c.mem (c.reg Reg.esp)

/-- The current thread of `s` calls `SWITCH`, and `s'` is the state in which it is back.
A thread that `Sleep` finds ready again while it idles is switched to itself. -/
inductive Resumes (l : Labels) (s : State) : State → Prop
  | self (c : Cpu) (h : s.Calls s.currentThread) (hc : s.cpu.exec switchCode = .ok c) :
      Resumes l s { s with cpu := c }
  | later {s₂ : State} (next : Word) (c c' : Cpu) (h : s.Calls next)
      (hne : next ≠ s.currentThread) (hc : s.cpu.exec switchCode = .ok c)
      (haside : Relation.ReflTransGen (Aside l s.currentThread)
        { s with cpu := c, currentThread := next } s₂)
      (h₂ : s₂.Calls s.currentThread) (hc₂ : s₂.cpu.exec switchCode = .ok c') :
      Resumes l s { s₂ with cpu := c', currentThread := s.currentThread }

/-- What is kept of the thread `t` while it waits: the processor `c` at its call. -/
structure Keeps (s : State) (t : Word) (c : Cpu) : Prop where
  reg : ∀ r, s.cpu.mem (t + offset r) = c.reg r
  pc : s.cpu.mem (t + offsetPC) = c.mem (c.reg esp)
  stack : ∀ a ∈ s.stack t, s.cpu.mem a = c.mem a

section Return

variable {l : Labels} {s s' : State} {t next : Word} {c : Cpu}

theorem keeps_of_switch (hi : s.Inv) (h : s.Calls next) (hne : next ≠ s.currentThread) :
    Keeps { s with cpu := switched s.cpu s.currentThread next, currentThread := next }
      s.currentThread s.cpu := by
  have hf {a : Word} (ha : a ∈ s.own s.currentThread) :=
    hi.switched_frame h hi.current hne.symm ha
  refine ⟨fun r => ?_, ?_, fun a ha => ?_⟩
  · exact (hf (.inl (mem_area_reg _ r))).trans (saved_reg ..)
  · exact (hf (.inl (mem_area_pc _))).trans (saved_pc ..)
  · refine (hf (.inr ha)).trans (State.Inv.afterSave_frame fun h' => ?_)
    exact Set.disjoint_left.mp (hi.inner _ hi.current) h' ha

/-- A thread for which everything was kept, once the restoring half has run. -/
theorem Keeps.returned {m : Cpu} (hreg : ∀ r, m.mem (t + offset r) = c.reg r)
    (hpc : m.mem (t + offsetPC) = c.mem (c.reg esp)) {stack : Set Word}
    (hst : ∀ a ∈ stack, m.mem a = c.mem a) (hret : c.reg esp ∈ stack) :
    Returned c stack (afterRestore m t) := by
  refine ⟨?_, ?_, fun r hr => ?_, fun a ha hne => ?_, ?_⟩
  · simp only [afterRestore, hreg]
    exact hst _ hret
  · simp [afterRestore, hreg]
  · simp [afterRestore, hreg, hr]
  · simp only [afterRestore, hreg, Function.update_of_ne hne]
    exact hst a ha
  · simp [afterRestore, hreg, hpc]

/-- The words of a thread that has waited, when the thread which switches to it is
saved. -/
theorem Aside.kept (h : Relation.ReflTransGen (Aside l t) s s') (hi : s.Inv)
    (hne : t ≠ s.currentThread) (hc : s'.Calls t) :
    s'.Inv ∧ ∀ a ∈ s.own t, (afterSave s'.cpu s'.currentThread).mem a = s.cpu.mem a := by
  obtain ⟨hi', hst, hm⟩ := Aside.keeps h hi
  refine ⟨hi', fun a ha => ?_⟩
  have ha' : a ∈ s'.own t := by
    rw [State.own, hst]
    exact ha
  rw [State.Inv.afterSave_frame
    (hi'.not_mem_area_current hc.known (Aside.ne_current h hne) ha'), hm a ha]

/-- Whatever the other threads did meanwhile, forks, destructions and switches
among them, a thread that calls `SWITCH` comes back as from a call. -/
theorem resumes_returned (hi : s.Inv) (h : Resumes l s s') :
    Returned s.cpu (s.stack s.currentThread) s'.cpu ∧ s'.currentThread = s.currentThread := by
  have hin := hi.inner _ hi.current
  have hsave : ∀ a ∈ s.stack s.currentThread,
      (afterSave s.cpu s.currentThread).mem a = s.cpu.mem a := fun a ha =>
    State.Inv.afterSave_frame fun h' => Set.disjoint_left.mp hin h' ha
  cases h with
  | self c hc he =>
    rw [hi.exec_switch hc] at he
    cases he
    exact ⟨Keeps.returned (fun r => saved_reg ..) (saved_pc ..) hsave hc.ret_mem, rfl⟩
  | @later s₂ next c c' hc hne he haside h₂ he₂ =>
    have hi₁ := (Step.run next c hc he : Step l s _).inv hi
    rw [hi.exec_switch hc] at he
    cases he
    have hk := keeps_of_switch hi hc hne
    obtain ⟨hi₂, hm⟩ := Aside.kept haside hi₁ hne.symm h₂
    rw [hi₂.exec_switch h₂] at he₂
    cases he₂
    refine ⟨Keeps.returned (fun r => ?_) ?_ (fun a ha => ?_) hc.ret_mem, rfl⟩
    · exact (hm _ (.inl (mem_area_reg _ r))).trans (hk.reg r)
    · exact (hm _ (.inl (mem_area_pc _))).trans hk.pc
    · exact (hm a (.inr ha)).trans (hk.stack a ha)

/-- The machine before the first `Fork`: one thread, with a thread object and a stack. -/
structure Started (s : State) : Prop where
  threads : s.threads = {s.currentThread}
  aligned : ∀ a ∈ s.own s.currentThread, Aligned a
  inner : Disjoint (area s.currentThread) (s.stack s.currentThread)

theorem Started.inv (h : Started s) : s.Inv := by
  have honly : ∀ t ∈ s.threads, t = s.currentThread := fun t ht => by
    rw [h.threads] at ht
    exact ht
  refine ⟨h.threads ▸ Set.mem_singleton _, fun t ht => ?_, fun t ht => ?_,
    fun t ht u hu hne => ?_, fun t ht hne => ?_⟩
  · exact honly t ht ▸ h.aligned
  · exact honly t ht ▸ h.inner
  · exact absurd ((honly t ht).trans (honly u hu).symm) hne
  · exact absurd (honly t ht) hne

theorem inv_of_steps (h : s.Inv) (hr : Relation.ReflTransGen (Step l) s s') : s'.Inv := by
  induction hr with
  | refl => exact h
  | tail _ hs ih => exact hs.inv ih

/-! A machine with one thread that is about to switch to a thread at `3000`, once there
is one: the frame of the call lies at `2000`. -/

def sampleLabels : Labels := ⟨0x100#32, 0x200#32, 0x300#32⟩

def sample : State where
  cpu :=
    { reg := fun _ => 0x2000#32
      eip := 0#32
      mem := fun a => if a = 0x2004#32 then 0x1000#32 else if a = 0x2008#32 then 0x3000#32 else 0#32
      eaxSave := 0#32 }
  currentThread := 0x1000#32
  threads := {0x1000#32}
  stack := fun _ => {0x2000#32, 0x2004#32, 0x2008#32}

theorem bounds_of_mem_area {t a : Word} (h : a ∈ area t) (ht : t.toNat + 36 ≤ 0x100000000) :
    t.toNat ≤ a.toNat ∧ a.toNat < t.toNat + 36 := by
  have hoff : ∃ d : Word, a = t + d ∧ d.toNat ≤ 32 := by
    obtain ⟨r, rfl⟩ | rfl := h
    · exact ⟨offset r, rfl, by cases r <;> decide⟩
    · exact ⟨offsetPC, rfl, by decide⟩
  obtain ⟨d, rfl, hd⟩ := hoff
  rw [BitVec.toNat_add]
  omega

theorem bounds_of_mem_stackWords {stack a : Word} (h : a ∈ stackWords stack)
    (hs : stack.toNat + 16384 ≤ 0x100000000) :
    stack.toNat ≤ a.toNat ∧ a.toNat < stack.toNat + 16384 := by
  obtain ⟨i, hi, rfl⟩ := h
  unfold stackSize at hi
  rw [stackWord, BitVec.toNat_add, BitVec.toNat_ofNat]
  omega

theorem bounds_of_mem_own_sample {a : Word} (h : a ∈ sample.own 0x1000#32) :
    a.toNat < 0x2009 := by
  obtain h | rfl | rfl | rfl := h
  · have := (bounds_of_mem_area h (by decide)).2
    simp only [BitVec.toNat_ofNat] at this
    omega
  all_goals decide

theorem sample_started : Started sample := by
  refine ⟨rfl, ?_, Set.disjoint_left.mpr ?_⟩
  · rintro a (h | rfl | rfl | rfl)
    · exact aligned_of_mem_area (by decide) h
    all_goals decide
  · intro a h hs
    have hlt := (bounds_of_mem_area h (by decide)).2
    obtain rfl | rfl | rfl := hs <;> exact absurd hlt (by decide)

theorem sample_free : sample.Free 0x3000#32 0x10000#32 := by
  refine ⟨by decide, by decide, Set.disjoint_left.mpr fun a ha hs => ?_, ?_⟩
  · have h1 := (bounds_of_mem_area ha (by decide)).2
    have h2 := (bounds_of_mem_stackWords hs (by decide)).1
    simp only [BitVec.toNat_ofNat] at h1 h2
    omega
  · rintro u rfl
    refine Set.disjoint_left.mpr fun a ha hm => ?_
    have hlt := bounds_of_mem_own_sample hm
    have hle : 0x3000 ≤ a.toNat := by
      obtain h | h := ha
      · exact (bounds_of_mem_area h (by decide)).1
      · exact le_trans (by decide) (bounds_of_mem_stackWords h (by decide)).1
    omega

theorem sample_new : 0x3000#32 ∉ sample.threads := by
  intro h
  exact absurd (show 0x3000#32 = 0x1000#32 from h) (by decide)

/-- The sample once the thread at `3000` exists. -/
def sampleForked : State := sample.fork sampleLabels 0x3000#32 0x10000#32 0x400#32 7#32

theorem sampleForked_mem {a : Word} (h : a ∈ sample.own 0x1000#32) :
    sampleForked.cpu.mem a = sample.cpu.mem a := by
  have hd := Set.disjoint_right.mp (sample_free.apart 0x1000#32 rfl) h
  exact stackAllocate_frame (fun h => hd (.inl h)) (fun h => hd (.inr h))

theorem sample_fork : Step sampleLabels sample sampleForked :=
  .fork 0x3000#32 0x10000#32 0x400#32 7#32 sample_new sample_free

theorem sampleForked_stack : sampleForked.stack 0x1000#32 = sample.stack 0x1000#32 :=
  sample_fork.stack_eq rfl

theorem sampleForked_calls : sampleForked.Calls 0x3000#32 where
  known := .inl rfl
  ret_mem := sampleForked_stack ▸ .inl rfl
  old_mem := sampleForked_stack ▸ .inr (.inl rfl)
  new_mem := sampleForked_stack ▸ .inr (.inr rfl)
  old := sampleForked_mem (.inr (.inr (.inl rfl)))
  new := sampleForked_mem (.inr (.inr (.inr rfl)))

theorem sampleForked_inv : sampleForked.Inv := sample_fork.inv sample_started.inv

/-- The sample once its new thread runs. -/
def sampleRunning : State :=
  { sampleForked with
    cpu := switched sampleForked.cpu 0x1000#32 0x3000#32
    currentThread := 0x3000#32 }

theorem sampleRunning_inv : sampleRunning.Inv :=
  (Step.run (l := sampleLabels) _ _ sampleForked_calls
    (sampleForked_inv.exec_switch sampleForked_calls)).inv sampleForked_inv

/-- The new thread is about to switch back, with the frame of its call at `11000`. -/
def sampleBack : State :=
  { sampleRunning with
    cpu :=
      { reg := fun _ => 0x11000#32
        eip := 0#32
        mem := fun a =>
          if a = 0x11004#32 then 0x3000#32
          else if a = 0x11008#32 then 0x1000#32
          else sampleRunning.cpu.mem a
        eaxSave := 0#32 } }

theorem sampleBack_work : Step sampleLabels sampleRunning sampleBack := by
  refine .work _ fun t ht hne a ha => ?_
  obtain rfl | rfl := ht
  · exact absurd rfl hne
  have ha' : a ∈ sample.own 0x1000#32 := by
    rw [State.own, ← sampleForked_stack]
    exact ha
  have hlt := bounds_of_mem_own_sample ha'
  have h4 : a ≠ 0x11004#32 := by
    rintro rfl
    exact absurd hlt (by decide)
  have h8 : a ≠ 0x11008#32 := by
    rintro rfl
    exact absurd hlt (by decide)
  simp only [h4, h8, if_false]

theorem sampleBack_stack {i : Nat} (h : i < stackSize) :
    stackWord 0x10000#32 i ∈ sampleBack.stack 0x3000#32 := by
  have e : sampleBack.stack 0x3000#32 = stackWords 0x10000#32 := by
    simp [sampleBack, sampleRunning, sampleForked, State.fork]
  rw [e]
  exact ⟨i, h, rfl⟩

theorem sampleBack_calls : sampleBack.Calls 0x1000#32 where
  known := .inr rfl
  ret_mem := sampleBack_stack (i := 1024) (by decide)
  old_mem := sampleBack_stack (i := 1025) (by decide)
  new_mem := sampleBack_stack (i := 1026) (by decide)
  old := rfl
  new := rfl

/-- Over every run of forks, destructions, switches and other code, a call of `SWITCH`
does not fault, and a thread that is switched back to returns from its own call with
its registers and its stack, but for the one word of an argument. -/
theorem switch_returns {s₀ : State} (h₀ : Started s₀)
    (hr : Relation.ReflTransGen (Step l) s₀ s) :
    (∀ next, s.Calls next → ∃ c, s.cpu.exec switchCode = .ok c) ∧
    ∀ s', Resumes l s s' → Returned s.cpu (s.stack s.currentThread) s'.cpu ∧
      s'.currentThread = s.currentThread := by
  have hi := inv_of_steps h₀.inv hr
  exact ⟨fun next hc => ⟨_, hi.exec_switch hc⟩, fun s' h => resumes_returned hi h⟩

theorem switch_returns_sample :
    ∃ s', Resumes sampleLabels sampleForked s' ∧
      Returned sampleForked.cpu (sampleForked.stack 0x1000#32) s'.cpu := by
  have hback := sampleBack_work.inv sampleRunning_inv
  have haside : Aside sampleLabels 0x1000#32 sampleRunning sampleBack :=
    ⟨sampleBack_work, by decide, by decide, .inr rfl⟩
  have h := Resumes.later _ _ _ sampleForked_calls (by decide)
    (sampleForked_inv.exec_switch sampleForked_calls) (.single haside) sampleBack_calls
    (hback.exec_switch sampleBack_calls)
  exact ⟨_, h, ((switch_returns sample_started (.single sample_fork)).2 _ h).1⟩

end Return

/-! ## The first run of a thread -/

/-- `ThreadRoot` as far as its first call, which comes back to `back`. -/
def rootToStartup (back : Word) : List Instr :=
  [.pushl ebp, .movl (.reg esp) (.reg ebp), .pushl edx, .call ecx back]

/-- The call of the function the thread is for. -/
def rootToInitial (back : Word) : List Instr := [.call esi back]

/-- The last call, of `ThreadFinish`. -/
def rootToWhenDone (back : Word) : List Instr := [.call edi back]

/-- A called function returns as the C compiler for the i386 has it: `c` is its entry
and `frame` the words of its caller that are no arguments of it. -/
structure Obeys (frame : Set Word) (c c' : Cpu) : Prop where
  eip : c'.eip = c.mem (c.reg esp)
  esp : c'.reg esp = c.reg esp + 4#32
  kept : ∀ r ∈ [ebx, ebp, esi, edi], c'.reg r = c.reg r
  frame : ∀ a ∈ frame, c'.mem a = c.mem a

/-- `ThreadRoot` from `c` on: it calls `InterruptEnable`, then `func` with the argument
`arg`, and when that returns `ThreadFinish`. -/
def RootCalls (l : Labels) (c : Cpu) (func arg : Word) : Prop :=
  c.eip = l.threadRoot ∧ ∀ back₁ back₂ back₃, ∃ c₁,
    c.exec (rootToStartup back₁) = .ok c₁ ∧ c₁.eip = l.interruptEnable ∧
    ∀ c₂, Obeys {c₁.reg esp + 4#32} c₁ c₂ → c₂.eip = back₁ ∧ ∃ c₃,
      c₂.exec (rootToInitial back₂) = .ok c₃ ∧ c₃.eip = func ∧
      c₃.mem (c₃.reg esp + 4#32) = arg ∧
      ∀ c₄, Obeys ∅ c₃ c₄ → c₄.eip = back₂ ∧ ∃ c₅,
        c₄.exec (rootToWhenDone back₃) = .ok c₅ ∧ c₅.eip = l.threadFinish

theorem aligned_sub_four {a : Word} (h : Aligned a) : Aligned (a - 4#32) := by
  unfold Aligned at *
  rw [BitVec.toNat_sub]
  simp only [BitVec.toNat_ofNat]
  have := a.isLt
  omega

theorem ne_sub_four (a : Word) : a ≠ a - 4#32 := by bv_omega

/-- `x` on top of the stack. -/
def Cpu.pushed (c : Cpu) (x : Word) : Cpu :=
  (c.setReg esp (c.reg esp - 4#32)).setMem (c.reg esp - 4#32) x

@[simp] theorem Cpu.pushed_esp (c : Cpu) (x : Word) :
    (c.pushed x).reg Reg.esp = c.reg Reg.esp - 4#32 := by simp [pushed]

@[simp] theorem Cpu.pushed_reg (c : Cpu) {r : Reg} (h : r ≠ Reg.esp) (x : Word) :
    (c.pushed x).reg r = c.reg r := by simp [pushed, h]

/-- The word pushed. -/
@[simp] theorem Cpu.pushed_top (c : Cpu) (x : Word) :
    (c.pushed x).mem (c.reg Reg.esp - 4#32) = x := by simp [pushed, mem_setMem]

/-- The word that was on top is the next one. -/
theorem Cpu.pushed_next (c : Cpu) (x : Word) :
    (c.pushed x).mem (c.reg Reg.esp) = c.mem (c.reg Reg.esp) := by
  simp [pushed, mem_setMem, ne_sub_four]

theorem Cpu.push_spec {c : Cpu} (h : Aligned (c.reg Reg.esp)) (x : Word) :
    c.push x = .ok (c.pushed x) := if_pos (aligned_sub_four h)

theorem Cpu.exec_pushl {c : Cpu} {r : Reg} {code : List Instr} (h : Aligned (c.reg Reg.esp)) :
    c.exec (.pushl r :: code) = (c.pushed (c.reg r)).exec code :=
  exec_cons (push_spec h _)

theorem Cpu.exec_call {c : Cpu} {r : Reg} {back : Word} {code : List Instr}
    (h : Aligned (c.reg Reg.esp)) :
    c.exec (.call r back :: code) = { c.pushed back with eip := c.reg r }.exec code :=
  exec_cons (by rw [step, push_spec h, ok_bind])

/-- The processor when `ThreadRoot` has called `StartupPC`. -/
def rootCalled (c : Cpu) (back : Word) : Cpu :=
  { (((c.pushed (c.reg ebp)).setReg ebp (c.reg esp - 4#32)).pushed (c.reg edx)).pushed back with
    eip := c.reg ecx }

theorem rootToStartup_spec {c : Cpu} (h : Aligned (c.reg esp)) (back : Word) :
    c.exec (rootToStartup back) = .ok (rootCalled c back) := by
  have h1 : Aligned (c.reg esp - 4#32) := aligned_sub_four h
  have h2 : Aligned (c.reg esp - 4#32 - 4#32) := aligned_sub_four h1
  have hmove : ∀ (d : Cpu) (code : List Instr),
      d.exec (.movl (.reg esp) (.reg ebp) :: code) = (d.setReg ebp (d.reg esp)).exec code :=
    fun d code => Cpu.exec_cons rfl
  rw [rootToStartup, Cpu.exec_pushl h, hmove, Cpu.exec_pushl, Cpu.exec_call]
  · rfl
  · simpa [Cpu.pushed] using h2
  · simpa [Cpu.pushed] using h1

theorem rootCalls_of_regs {l : Labels} {c : Cpu} {func arg : Word} (hesp : Aligned (c.reg esp))
    (heip : c.eip = l.threadRoot) (hecx : c.reg ecx = l.interruptEnable)
    (hesi : c.reg esi = func) (hedx : c.reg edx = arg) (hedi : c.reg edi = l.threadFinish) :
    RootCalls l c func arg := by
  refine ⟨heip, fun back₁ back₂ back₃ => ⟨_, rootToStartup_spec hesp back₁, hecx, ?_⟩⟩
  -- Where the argument is: the call has pushed one word after it.
  have hsp : (rootCalled c back₁).reg esp + 4#32 = c.reg esp - 4#32 - 4#32 :=
    BitVec.sub_add_cancel (c.reg esp - 4#32 - 4#32) 4#32
  have hesp₁ : Aligned (c.reg esp - 4#32 - 4#32) := aligned_sub_four (aligned_sub_four hesp)
  have harg : (rootCalled c back₁).mem ((rootCalled c back₁).reg esp + 4#32) = arg := by
    rw [hsp, ← hedx]
    simp [rootCalled, Cpu.pushed, Cpu.mem_setMem, ne_sub_four]
  intro c₂ h₂
  have hesp₂ : Aligned (c₂.reg esp) := by
    rw [h₂.esp, hsp]
    exact hesp₁
  refine ⟨h₂.eip.trans ?_, _, Cpu.exec_call hesp₂, ?_, ?_, fun c₄ h₄ => ?_⟩
  · simp [rootCalled, Cpu.pushed, Cpu.mem_setMem]
  · exact (h₂.kept esi (by decide)).trans (by simp [rootCalled, hesi])
  · calc (c₂.pushed back₂).mem ((c₂.pushed back₂).reg esp + 4#32)
        = c₂.mem (c₂.reg esp) := by
          rw [Cpu.pushed_esp, BitVec.sub_add_cancel, Cpu.pushed_next]
      _ = (rootCalled c back₁).mem ((rootCalled c back₁).reg esp + 4#32) := by
          rw [h₂.esp]
          exact h₂.frame _ rfl
      _ = arg := harg
  have hesp₄ : Aligned (c₄.reg esp) := by
    have e : c₄.reg esp = c₂.reg esp := by
      rw [h₄.esp, Cpu.pushed_esp, BitVec.sub_add_cancel]
    rw [e]
    exact hesp₂
  refine ⟨h₄.eip.trans ?_, _, Cpu.exec_call hesp₄, ?_⟩
  · simp
  · refine (h₄.kept edi (by decide)).trans ?_
    have e : c₂.reg edi = c.reg edi := (h₂.kept edi (by decide)).trans (by simp [rootCalled])
    simp [e, hedi]

section FirstRun

variable {l : Labels} {s₀ s s₂ : State} {t stack func arg : Word} {c : Cpu}

/-- A new thread, whenever it is first switched to and whatever happened since its
`Fork`, starts at `ThreadRoot`, which enables interrupts, calls the thread's function
with its argument and ends in `ThreadFinish`. -/
theorem forked_thread_runs (h₀ : Started s₀) (hr : Relation.ReflTransGen (Step l) s₀ s)
    (hnew : t ∉ s.threads) (hfree : s.Free t stack)
    (haside : Relation.ReflTransGen (Aside l t) (s.fork l t stack func arg) s₂)
    (hc : s₂.Calls t) (he : s₂.cpu.exec switchCode = .ok c) : RootCalls l c func arg := by
  have hi := inv_of_steps h₀.inv hr
  have hi₁ : (s.fork l t stack func arg).Inv := (Step.fork t stack func arg hnew hfree).inv hi
  have hne : t ≠ s.currentThread := fun e => hnew (e ▸ hi.current)
  obtain ⟨hi₂, hm⟩ := Aside.kept haside hi₁ hne hc
  have hreg := fun r => hm _ (.inl (mem_area_reg t r))
  obtain ⟨hesp, hroot, hecx, hesi, hedx, hedi⟩ :=
    stackAllocate_spec l func arg s.cpu.mem hfree.inner
  have htop : (afterSave s₂.cpu s₂.currentThread).mem (stackTop stack) = l.threadRoot := by
    have hown : stackTop stack ∈ (s.fork l t stack func arg).own t := by
      rw [State.own_fork_self]
      exact .inr (stackTop_mem stack)
    rw [hm _ hown, State.mem_fork, hroot]
  rw [hi₂.exec_switch hc] at he
  cases he
  have hsp : (afterSave s₂.cpu s₂.currentThread).mem (t + offset esp) = stackTop stack :=
    (hreg esp).trans hesp
  have hr' : ∀ r ≠ esp, (switched s₂.cpu s₂.currentThread t).reg r =
      storeAll s.cpu.mem (stackAllocate l t stack func arg) (t + offset r) := fun r h => by
    simp only [switched, afterRestore, Function.update_of_ne h]
    exact hreg r
  refine rootCalls_of_regs ?_ ?_ ((hr' ecx (by decide)).trans hecx)
    ((hr' esi (by decide)).trans hesi) ((hr' edx (by decide)).trans hedx)
    ((hr' edi (by decide)).trans hedi)
  · simp only [switched, afterRestore, hsp, Function.update_self]
    exact aligned_of_mem_stackWords hfree.stack_aligned (stackTop_add_four_mem stack)
  · simp only [switched, afterRestore, hsp]
    exact htop

theorem forked_thread_runs_sample :
    ∃ c, sampleForked.cpu.exec switchCode = .ok c ∧ RootCalls sampleLabels c 0x400#32 7#32 :=
  ⟨_, sampleForked_inv.exec_switch sampleForked_calls,
    forked_thread_runs sample_started .refl sample_new sample_free .refl sampleForked_calls
      (sampleForked_inv.exec_switch sampleForked_calls)⟩

end FirstRun

end Nachos.Switch

import Mathlib.Algebra.BigOperators.Group.Finset.Basic
import Nachos.Threads.Scheduler

/-! What a context switch does. `SwitchedTo` says it once, for everything that
is proved about whole runs; the rest of the module counts places: a thread that
is alive and not joined is in exactly one place, on the CPU, on the ready list
or on the queue of one page lock, and no other thread is in any. -/

namespace Nachos
open Lib Finset

theorem sum_range_update {α : Type} (g : α → Nat) (h : Nat → α) (a : α) {n f : Nat} (hf : f < n) :
    ∑ i ∈ range n, g (Function.update h f a i) + g (h f) = ∑ i ∈ range n, g (h i) + g a := by
  have hmem : f ∈ range n := mem_range.mpr hf
  have hrest : ∑ i ∈ (range n).erase f, g (Function.update h f a i) =
      ∑ i ∈ (range n).erase f, g (h i) := by
    refine sum_congr rfl fun i hi => ?_
    rw [Function.update_of_ne (ne_of_mem_erase hi)]
  rw [← add_sum_erase _ _ hmem, ← add_sum_erase _ (fun i => g (h i)) hmem, hrest,
    Function.update_self]
  omega

namespace Kernel

/-- The live threads: a finished thread waits to be destroyed, and is none. -/
def live (k : Kernel) (t : ThreadPtr) : Option Thread :=
  if k.threadToBeDestroyed = some t then none else k.thread t

/-- What no context switch touches. -/
def unswitched (k : Kernel) : Kernel :=
  { k with thread := fun _ => none, status := fun _ => .justCreated, userRegisters := fun _ _ => 0
           currentThread := 0, threadToBeDestroyed := none, readyList := [], registers := fun _ => 0
           pageTable := none, pageTableSize := 0 }

theorem live_eq_some {k : Kernel} {t : ThreadPtr} {T : Thread} (h : k.live t = some T) :
    k.threadToBeDestroyed ≠ some t ∧ k.thread t = some T := by
  unfold live at h
  split at h
  · cases h
  · exact ⟨‹_›, h⟩

theorem spaceOf_of_live {k : Kernel} {t : ThreadPtr} {T : Thread} (h : k.live t = some T) :
    k.spaceOf t = T.space := by
  unfold spaceOf
  rw [(live_eq_some h).2]
  rfl

/-! ## Context switches -/

/-- The effect of `Scheduler::Run(next)`. -/
structure SwitchedTo (k : Kernel) (next : ThreadPtr) (k' : Kernel) : Prop where
  rest : k'.unswitched = k.unswitched
  ready : k'.readyList = k.readyList
  current : k'.currentThread = next
  live : k'.live = k.live
  freed : ∀ t, k.thread t = none → k'.thread t = none
  saved : k'.userRegisters = k.saveState.userRegisters
  fresh : k.cont next = .threadRoot → k'.thread = k.thread ∧
    k'.threadToBeDestroyed = k.threadToBeDestroyed ∧ k'.registers = k.registers
  resumed : k.cont next ≠ .threadRoot → k'.threadToBeDestroyed = none ∧
    ∀ s, k.spaceOf next = some s → k.threadToBeDestroyed ≠ some next →
      k'.registers = k.saveState.userRegisters next ∧ k'.pageTable = some s ∧
      ∃ S, k.space s = some S ∧ k'.pageTableSize = S.numPages

theorem saveState_eq (k : Kernel) :
    k.saveState = { k with userRegisters := k.saveState.userRegisters } := by
  unfold saveState
  split <;> rfl

theorem saveState_of_ne {k : Kernel} {t : ThreadPtr} (h : t ≠ k.currentThread) :
    k.saveState.userRegisters t = k.userRegisters t := by
  unfold saveState
  split
  · exact Function.update_of_ne h _ _
  · rfl

theorem saveState_self {k : Kernel} {s : SpacePtr} (h : k.spaceOf k.currentThread = some s) :
    k.saveState.userRegisters k.currentThread = k.registers := by
  unfold saveState
  rw [h]
  exact Function.update_self _ _ _

theorem destroyFinished_eq_ok {k k' : Kernel} (h : k.destroyFinished = .ok k') :
    k' = { k with thread := k'.thread, threadToBeDestroyed := none } ∧ k'.live = k.live ∧
      (∀ t, k.thread t = none → k'.thread t = none) ∧
      ∀ t, k.threadToBeDestroyed ≠ some t → k'.thread t = k.thread t := by
  unfold destroyFinished at h
  split at h
  · rename_i hn
    cases h
    exact ⟨by rw [← hn], rfl, fun _ h => h, fun _ _ => rfl⟩
  · rename_i x hx
    split at h
    · cases h
    · cases h
      refine ⟨rfl, ?_, fun t ht => ?_, fun t ht => ?_⟩
      · funext t
        simp only [Kernel.live, hx, Function.update_apply, Option.some.injEq, eq_comm (a := x)]
        by_cases h : t = x <;> simp [h]
      · simp only [Function.update_apply, ht]
        split <;> rfl
      · have hne : t ≠ x := fun he => ht (by rw [hx, he])
        simp only [Function.update_of_ne hne]

theorem restoreState_eq_ok {k k' : Kernel} (h : k.restoreState = .ok k') :
    k' = { k with registers := k'.registers, pageTable := k'.pageTable,
                  pageTableSize := k'.pageTableSize } ∧
      ∀ s, k.spaceOf k.currentThread = some s →
        k'.registers = k.userRegisters k.currentThread ∧ k'.pageTable = some s ∧
        ∃ S, k.space s = some S ∧ k'.pageTableSize = S.numPages := by
  unfold restoreState at h
  split at h
  · rename_i hn
    cases h
    exact ⟨rfl, fun s hs => by rw [hn] at hs; cases hs⟩
  · rename_i s hs
    unfold restoreSpace at h
    split at h
    · cases h
    · rename_i S hS
      cases h
      refine ⟨rfl, fun s' hs' => ?_⟩
      rw [hs] at hs'
      cases hs'
      exact ⟨rfl, rfl, S, hS, rfl⟩

theorem run_switchedTo {k k' : Kernel} {next : ThreadPtr} (h : k.run next = .ok k') :
    k.SwitchedTo next k' := by
  unfold run at h
  dsimp only at h
  rw [saveState_eq] at h
  split at h
  · rename_i hroot
    cases h
    exact ⟨rfl, rfl, rfl, rfl, fun _ h => h, rfl, fun _ => ⟨rfl, rfl, rfl⟩,
      fun hne => absurd hroot hne⟩
  · rename_i hroot
    obtain ⟨k1, h1, h2⟩ := bind_eq_ok.mp h
    obtain ⟨e1, hlive, hfreed, hkept⟩ := destroyFinished_eq_ok h1
    obtain ⟨e2, htable⟩ := restoreState_eq_ok h2
    rw [e1] at e2 htable
    rw [e2]
    refine ⟨rfl, rfl, rfl, ?_, fun t ht => hfreed t ht, rfl,
      fun hr => absurd hr hroot, fun _ => ⟨rfl, fun s hs hx => ?_⟩⟩
    · rw [e1] at hlive; exact hlive
    · refine htable s ?_
      have hsame : k1.thread next = k.thread next := hkept next hx
      change (k1.thread next).bind Thread.space = some s
      rw [hsame]
      exact hs

/-- What becomes of the CPU: the running thread keeps it, its pending load
perhaps flushed, or it goes to the front of the ready list. -/
theorem dispatch_cases {k k' : Kernel} {n : Next} (h : k.dispatch n = .ok k') :
    (n ≠ Next.sleep ∧ (k' = k ∨ n = .tick true ∧ k' = { k with registers := k.registers.flush })) ∨
    (∃ next rest regs st, k.readyList = next :: rest ∧
      (n = .tick true ∧ regs = k.registers.flush ∨ n ≠ .tick true ∧ regs = k.registers) ∧
      { k with readyList := rest ++ if n = Next.sleep then [] else [k.currentThread]
               registers := regs, status := st }.SwitchedTo next k') := by
  -- yielding with the registers already flushed or not
  have hyield (r : Registers) (h : { k with registers := r }.yield = .ok k') :
      k' = { k with registers := r } ∨ ∃ next rest st, k.readyList = next :: rest ∧
        { k with readyList := rest ++ [k.currentThread], registers := r, status := st }.SwitchedTo
          next k' := by
    unfold yield at h
    split at h
    · cases h; exact .inl rfl
    · rename_i next rest hl
      exact .inr ⟨next, rest, _, hl, run_switchedTo h⟩
  cases n with
  | stay => cases h; exact .inl ⟨by simp, .inl rfl⟩
  | tick fire =>
    cases fire with
    | false => cases h; exact .inl ⟨by simp, .inl rfl⟩
    | true =>
      rcases hyield _ h with hk | ⟨next, rest, st, hl, hs⟩
      · exact .inl ⟨by simp, .inr ⟨rfl, hk⟩⟩
      · exact .inr ⟨next, rest, _, st, hl, .inl ⟨rfl, rfl⟩, by simpa using hs⟩
  | yield =>
    rcases hyield k.registers h with hk | ⟨next, rest, st, hl, hs⟩
    · exact .inl ⟨by simp, .inl hk⟩
    · exact .inr ⟨next, rest, _, st, hl, .inr ⟨by simp, rfl⟩, by simpa using hs⟩
  | sleep =>
    change k.sleep = .ok k' at h
    unfold sleep at h
    split at h
    · cases h
    · rename_i next rest hl
      refine .inr ⟨next, rest, _, Function.update k.status k.currentThread .blocked, hl,
        .inr ⟨by simp, rfl⟩, ?_⟩
      rw [if_pos rfl, List.append_nil]
      exact run_switchedTo h

/-- Nothing but the CPU's own state changes hands. -/
theorem dispatch_frame {k k' : Kernel} {n : Next} (h : k.dispatch n = .ok k') :
    k'.unswitched = k.unswitched ∧ k'.live = k.live ∧
      ∀ t, k.thread t = none → k'.thread t = none := by
  rcases dispatch_cases h with ⟨-, rfl | ⟨-, rfl⟩⟩ | ⟨_, _, _, _, _, _, hs⟩
  · exact ⟨rfl, rfl, fun _ h => h⟩
  · exact ⟨rfl, rfl, fun _ h => h⟩
  · exact ⟨hs.rest, hs.live, hs.freed⟩

/-! ## Places -/

/-- How often `t` stands on the ready list and on the queues of the page locks. -/
def waiting (k : Kernel) (t : ThreadPtr) : Nat :=
  k.readyList.count t + ∑ f ∈ range numPhysPages, (k.pageLock f).queue.count t

/-- The places a thread has: one if it is alive and not asleep in `SC_Join`. -/
def seats : Option Thread → Nat
  | none => 0
  | some T => if T.isJoined then 0 else 1

theorem seats_le_one (o : Option Thread) : seats o ≤ 1 := by
  cases o with
  | none => exact Nat.zero_le 1
  | some T => cases h : T.isJoined <;> simp [seats, h]

theorem seats_eq_one {o : Option Thread} (h : 0 < seats o) :
    ∃ T, o = some T ∧ T.isJoined = false := by
  cases o with
  | none => cases h
  | some T =>
    refine ⟨T, rfl, ?_⟩
    cases hj : T.isJoined with
    | false => rfl
    | true => simp [seats, hj] at h

/-- Every thread is in as many places as it has; `cpu` is the thread on the
CPU, if the CPU is taken. -/
def Seated (k : Kernel) (cpu : Option ThreadPtr) : Prop :=
  ∀ t, (if cpu = some t then 1 else 0) + k.waiting t = seats (k.live t)

/-- The thread on the CPU at the end of a stretch of kernel code. -/
def onCPU (k : Kernel) (n : Next) : Option ThreadPtr :=
  if n = .sleep then none else some k.currentThread

/-- The running thread is alive and not joined. -/
theorem Seated.running {k : Kernel} {t : ThreadPtr} (h : k.Seated (some t)) :
    ∃ T, k.live t = some T ∧ T.isJoined = false := by
  have := h t
  rw [if_pos rfl] at this
  exact seats_eq_one (by omega)

theorem waiting_congr {k k' : Kernel} (hr : k'.readyList = k.readyList)
    (hl : k'.pageLock = k.pageLock) (t : ThreadPtr) : k'.waiting t = k.waiting t := by
  unfold waiting
  rw [hr, hl]

theorem waiting_setLock {k : Kernel} {f : Nat} (hf : f < numPhysPages) (lock : Semaphore)
    (t : ThreadPtr) : (k.setLock f lock).waiting t + (k.pageLock f).queue.count t =
      k.waiting t + lock.queue.count t := by
  have := sum_range_update (fun l : Semaphore => l.queue.count t) k.pageLock lock hf
  simp only [waiting, setLock]
  omega

theorem Seated.congr {k k' : Kernel} {cpu : Option ThreadPtr} (h : k.Seated cpu)
    (hr : k'.readyList = k.readyList) (hl : k'.pageLock = k.pageLock) (hv : k'.live = k.live) :
    k'.Seated cpu := by
  intro t
  rw [waiting_congr hr hl, hv]
  exact h t

theorem Seated.dispatch {k k' : Kernel} {n : Next} (hs : k.Seated (k.onCPU n))
    (h : k.dispatch n = .ok k') : k'.Seated (some k'.currentThread) := by
  rcases dispatch_cases h with ⟨hn, hk⟩ | ⟨next, rest, regs, st, hl, -, hw⟩
  · unfold onCPU at hs
    rw [if_neg hn] at hs
    rcases hk with rfl | ⟨-, rfl⟩
    · exact hs
    · exact hs.congr rfl rfl rfl
  · intro t
    have hseat := hs t
    have hlock : k'.pageLock = k.pageLock := (congrArg Kernel.pageLock hw.rest :)
    have hlive : k'.live = k.live := hw.live
    have hcount : k.readyList.count t = rest.count t + if next = t then 1 else 0 := by
      rw [hl, List.count_cons]; simp
    unfold onCPU at hseat
    unfold waiting at *
    rw [hw.ready, hlock, hw.current, hlive]
    -- the front of the ready list takes the CPU, the old thread its end, if anything
    by_cases hn : n = .sleep
    · simp [hn] at hseat ⊢
      omega
    · simp [hn, List.count_append, List.count_singleton] at hseat ⊢
      omega

end Kernel
end Nachos

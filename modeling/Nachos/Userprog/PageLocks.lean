import Nachos.Userprog.Join
import Nachos.Userprog.Preemption

/-! The page locks under preemption. `loadPage` takes a semaphore per frame around
the filling of the frame, and a thread can lose the CPU at both ends of it. However
the threads interleave, at most one of them is behind the `P` of a lock, and as long
as somebody sleeps at a lock there is a thread awake that will pass it and wake the
next one. -/

namespace Nachos
open Lib
namespace Kernel

/-- The live thread `t` stands at `c`. -/
def At (k : Kernel) (t : ThreadPtr) (c : Cont) : Prop := (k.live t).isSome ∧ k.cont t = c

/-- The thread `t` has taken the lock of the frame `f` and not given it back. -/
def HasLock (k : Kernel) (f : Nat) (t : ThreadPtr) : Prop := ∃ v c, k.At t (.locked v f c)

/-- The thread `t` is inside `loadPage` with the frame `f`. -/
def Loads (k : Kernel) (f : Nat) (t : ThreadPtr) : Prop :=
  (∃ v c, k.At t (.locking v f c)) ∨ k.HasLock f t

structure LockInv (k : Kernel) : Prop where
  free : ∀ f, (k.pageLock f).value = 1 ∧ (∀ t, ¬ k.HasLock f t) ∨
    (k.pageLock f).value = 0 ∧ ∃ t, k.HasLock f t ∧ ∀ t', k.HasLock f t' → t' = t
  queued : ∀ f, ∀ t ∈ (k.pageLock f).queue, ∃ v c, k.At t (.locking v f c)
  awake : ∀ f, (k.pageLock f).queue ≠ [] → ∃ t, k.Loads f t ∧ t ∉ (k.pageLock f).queue
  joined : ∀ {t T}, k.live t = some T → T.isJoined = true → (k.cont t).flight = none

variable {k k' k'' : Kernel} {n : Next} {e : Event}

/-! ## Steps away from the locks -/

/-- The locks are as before, and the threads that are inside `loadPage` stand where
they stood. -/
structure SameFlights (k k' : Kernel) : Prop where
  locks : k'.pageLock = k.pageLock
  at_iff : ∀ t {c : Cont}, c.flight ≠ none → (k'.At t c ↔ k.At t c)

theorem SameFlights.of_eq (hl : k'.pageLock = k.pageLock) (hc : k'.cont = k.cont)
    (hv : k'.live = k.live) : SameFlights k k' :=
  ⟨hl, fun t c _ => by rw [At, At, hc, hv]⟩

theorem SameFlights.trans (h : SameFlights k k') (h' : SameFlights k' k'') : SameFlights k k'' :=
  ⟨h'.locks.trans h.locks, fun t _ hc => (h'.at_iff t hc).trans (h.at_iff t hc)⟩

theorem at_goTo_of_ne {c d : Cont} {t : ThreadPtr} (h : t ≠ k.currentThread) :
    (k.goTo c).At t d ↔ k.At t d := by
  rw [At, At, goTo]
  simp only [Function.update_of_ne h]
  rfl

theorem at_goTo_self {c d : Cont} :
    (k.goTo c).At k.currentThread d ↔ (k.live k.currentThread).isSome ∧ c = d := by
  rw [At, goTo]
  simp only [Function.update_self]
  rfl

theorem SameFlights.goTo {c : Cont} (hhere : k.here.flight = none) (hc : c.flight = none) :
    SameFlights k (k.goTo c) := by
  refine ⟨rfl, fun t d hd => ?_⟩
  by_cases ht : t = k.currentThread
  · subst ht
    rw [at_goTo_self, At]
    constructor
    · rintro ⟨-, rfl⟩
      exact absurd hc hd
    · rintro ⟨-, rfl⟩
      exact absurd hhere hd
  · exact at_goTo_of_ne ht

theorem MemoryOnly.sameFlights (h : MemoryOnly k k') : SameFlights k k' :=
  .of_eq (congrArg Kernel.pageLock h.rest :) (congrArg Kernel.cont h.rest :)
    h.sameProcesses.live

theorem SameFlights.hasLock (h : SameFlights k k') (f : Nat) (t : ThreadPtr) :
    k'.HasLock f t ↔ k.HasLock f t := by
  simp only [HasLock, h.at_iff t (c := .locked _ f _) (by simp [Cont.flight])]

theorem SameFlights.loads (h : SameFlights k k') (f : Nat) (t : ThreadPtr) :
    k'.Loads f t ↔ k.Loads f t := by
  simp only [Loads, h.hasLock, h.at_iff t (c := .locking _ f _) (by simp [Cont.flight])]

theorem LockInv.sameFlights (hl : k.LockInv) (h : SameFlights k k')
    (hj : ∀ {t T}, k'.live t = some T → T.isJoined = true → (k'.cont t).flight = none) :
    k'.LockInv := by
  refine ⟨fun f => ?_, fun f t ht => ?_, fun f hq => ?_, hj⟩
  · simp only [h.locks, h.hasLock]
    exact hl.free f
  · rw [h.locks] at ht
    obtain ⟨v, c, hat⟩ := hl.queued f t ht
    exact ⟨v, c, (h.at_iff t (by simp [Cont.flight])).mpr hat⟩
  · rw [h.locks] at hq ⊢
    obtain ⟨t, ht, hnot⟩ := hl.awake f hq
    exact ⟨t, (h.loads f t).mpr ht, hnot⟩

theorem LockInv.memoryOnly (hl : k.LockInv) (hm : MemoryOnly k k') : k'.LockInv := by
  refine hl.sameFlights hm.sameFlights fun {t T} hT hTj => ?_
  rw [hm.sameProcesses.live] at hT
  rw [show k'.cont = k.cont from (congrArg Kernel.cont hm.rest :)]
  exact hl.joined hT hTj

/-! ## Sleepers are outside -/

/-- A thread that sleeps in `SC_Join` is not inside `loadPage`. -/
theorem act_joined (hi : k.Inv)
    (hj : ∀ {t T}, k.live t = some T → T.isJoined = true → (k.cont t).flight = none)
    (h : k.act e = .ok (k', n)) {t : ThreadPtr} {T : Thread} (hT : k'.live t = some T)
    (hTj : T.isJoined = true) : (k'.cont t).flight = none := by
  obtain ⟨R, hR, hRj⟩ := hi.running
  have hne {X : Thread} (hX : k.live t = some X) (hXj : X.isJoined = true) :
      t ≠ k.currentThread := by
    rintro rfl
    rw [hX] at hR
    cases hR
    rw [hXj] at hRj
    cases hRj
  cases act_acted hi h with
  | moved hl =>
    rw [hl.live] at hT
    rw [hl.conts t (hne hT hTj)]
    exact hj hT hTj
  | @built _ _ _ x k1 _ hnew =>
    obtain ⟨hs, hcont, -⟩ := exec_spawned (r := BitVec.ofNat 32 k.threadID) hnew
    have hp : (k.goTo .user).Processes :=
      hi.procs.transfer (.of_eq rfl rfl rfl rfl rfl rfl fun _ => rfl)
    have hT' := (hs.live hp t).symm.trans hT
    split at hT'
    · cases hT'
      cases hTj
    · rename_i htn
      have hcur : t ≠ k.currentThread := hne hT' hTj
      have e1 : ((k1.writeRegister 2 (BitVec.ofNat 32 k.threadID)).newThread k.nextSpace).cont t =
          (k.goTo .user).cont t := (congrFun hcont t).trans (Function.update_of_ne htn ..)
      have e2 : (k.goTo .user).cont t = k.cont t := Function.update_of_ne hcur ..
      exact (congrArg Cont.flight (e1.trans e2)).trans (hj hT' hTj)
  | joined =>
    by_cases ht : t = k.currentThread
    · subst ht
      simp [goTo, Cont.flight]
    · have hT' := (live_map (k.goTo .user) _ t).symm.trans hT
      obtain ⟨X, hX, rfl⟩ := Option.map_eq_some_iff.mp hT'
      have hXj : X.isJoined = true := by simpa [joinEffect, ht] using hTj
      exact (congrArg Cont.flight (Function.update_of_ne ht ..)).trans (hj hX hXj)
  | @ended _ r _ _ ha ht =>
    obtain ⟨s, hs, -⟩ := hi.procs.space hR
    have hr : { k with registers := r }.Inv := hi.registers r (by simp)
    obtain ⟨_, _, _, -, -, hk⟩ :=
      terminate_eq_ok (k := { k with registers := r }) (live_eq_some hR).2 hs ht
    have hcont : k'.cont = k.cont := by rw [hk]
    have hlive := (hr.procs.terminate hR hRj ha.dying ht).2 t
    rw [hT] at hlive
    split at hlive
    · cases hlive
    · obtain ⟨X, hX, rfl⟩ := Option.map_eq_some_iff.mp hlive.symm
      rw [hcont]
      refine hj hX ?_
      unfold wakeEffect at hTj
      split at hTj
      · cases hTj
      · exact hTj
  | @created k1 hc =>
    obtain ⟨_, _, -, -, hk, hl, -⟩ := create_eq_ok hc
    have hT' : k.live t = some T := by
      rw [← hl]
      exact hT
    have hcur : t ≠ k1.currentThread := by
      rw [show k1.currentThread = k.currentThread by rw [hk]]
      exact hne hT' hTj
    have hcont : k1.cont = k.cont := by rw [hk]
    rw [show (k1.goTo .user).cont t = k1.cont t from Function.update_of_ne hcur .., hcont]
    exact hj hT' hTj

/-! ## At the locks -/

theorem lock_spec {fire : Bool} (h : k.lock fire = .ok (k', n)) :
    ∃ v f c, k.here = .locking v f c ∧
      ((k.pageLock f).value = 0 ∧ k' = k.lockWait f ∨
        (k.pageLock f).value ≠ 0 ∧ k' = (k.lockTake f).goTo (.locked v f c)) := by
  unfold lock at h
  split at h
  · rename_i v f c hhere
    refine ⟨v, f, c, hhere, ?_⟩
    split at h
    · cases h
      exact .inl ⟨‹_›, rfl⟩
    · cases h
      exact .inr ⟨‹_›, rfl⟩
  · cases h

theorem Inv.at_here (hi : k.Inv) {c : Cont} (h : k.here = c) : k.At k.currentThread c := by
  obtain ⟨T, hT, -⟩ := hi.running
  exact ⟨by rw [hT]; rfl, h⟩

/-- Nobody is twice on the queue of a lock, and the running thread is on none. -/
theorem Inv.queue_count (hi : k.Inv) {f : Nat} (hf : f < numPhysPages) (t : ThreadPtr) :
    (k.pageLock f).queue.count t ≤ if t = k.currentThread then 0 else 1 := by
  have hseat := hi.seated t
  have hle := seats_le_one (k.live t)
  have hsum := Finset.add_sum_erase (Finset.range numPhysPages)
    (fun g => (k.pageLock g).queue.count t) (Finset.mem_range.mpr hf)
  unfold waiting onCPU at hseat
  simp only [reduceCtorEq, if_false, Option.some.injEq] at hseat
  by_cases ht : t = k.currentThread
  · rw [if_pos ht.symm] at hseat
    rw [if_pos ht]
    omega
  · rw [if_neg ht]
    omega

theorem LockInv.queue_lt (hl : k.LockInv) (hi : k.Inv) {f : Nat} {t : ThreadPtr}
    (h : t ∈ (k.pageLock f).queue) : f < numPhysPages := by
  obtain ⟨v, c, -, hc⟩ := hl.queued f t h
  have := hi.framed t
  rw [hc] at this
  exact this

theorem LockInv.current_not_queued (hl : k.LockInv) (hi : k.Inv) (f : Nat) :
    k.currentThread ∉ (k.pageLock f).queue := by
  intro h
  have hle := hi.queue_count (hl.queue_lt hi h) k.currentThread
  have hpos := List.count_pos_iff.mpr h
  rw [if_pos rfl] at hle
  omega

theorem LockInv.queue_nodup (hl : k.LockInv) (hi : k.Inv) (f : Nat) :
    (k.pageLock f).queue.Nodup := by
  refine List.nodup_iff_count_le_one.mpr fun t => ?_
  by_cases h : t ∈ (k.pageLock f).queue
  · have := hi.queue_count (hl.queue_lt hi h) t
    split at this <;> omega
  · rw [List.count_eq_zero.mpr h]
    omega

theorem HasLock.unique {f g : Nat} {t : ThreadPtr} (h : k.HasLock f t) (h' : k.HasLock g t) :
    f = g := by
  obtain ⟨v, c, -, hc⟩ := h
  obtain ⟨v', c', -, hc'⟩ := h'
  rw [hc] at hc'
  cases hc'
  rfl

/-- Who holds a lock is on no queue. -/
theorem LockInv.hasLock_not_queued (hl : k.LockInv) {f g : Nat} {t : ThreadPtr}
    (h : k.HasLock f t) : t ∉ (k.pageLock g).queue := by
  intro hq
  obtain ⟨v, c, -, hc⟩ := h
  obtain ⟨v', c', -, hc'⟩ := hl.queued g t hq
  rw [hc] at hc'
  cases hc'

theorem LockInv.wait (hl : k.LockInv) (hi : k.Inv) {v : Int} {f : Nat} {c : Bool}
    (hhere : k.here = .locking v f c) (hzero : (k.pageLock f).value = 0) :
    (k.lockWait f).LockInv := by
  have hother {g : Nat} (hg : g ≠ f) : (k.lockWait f).pageLock g = k.pageLock g :=
    Function.update_of_ne hg ..
  have hself : (k.lockWait f).pageLock f =
      ⟨(k.pageLock f).value, (k.pageLock f).queue ++ [k.currentThread]⟩ := Function.update_self ..
  refine ⟨fun g => ?_, fun g t ht => ?_, fun g hq => ?_, hl.joined⟩
  · by_cases hg : g = f
    · subst hg
      rw [hself]
      exact hl.free g
    · rw [hother hg]
      exact hl.free g
  · by_cases hg : g = f
    · subst hg
      rw [hself, List.mem_append, List.mem_singleton] at ht
      rcases ht with ht | rfl
      · exact hl.queued g t ht
      · exact ⟨v, c, hi.at_here hhere⟩
    · rw [hother hg] at ht
      exact hl.queued g t ht
  · by_cases hg : g = f
    · -- the lock is taken, and its holder is not asleep
      subst hg
      obtain ⟨hone, -⟩ | ⟨-, t, ht, -⟩ := hl.free g
      · rw [hzero] at hone
        cases hone
      refine ⟨t, .inr ht, ?_⟩
      rw [hself, List.mem_append, List.mem_singleton]
      rintro (hq | rfl)
      · exact hl.hasLock_not_queued ht hq
      · obtain ⟨v', c', -, hc⟩ := ht
        cases hhere.symm.trans hc
    · rw [hother hg] at hq ⊢
      exact hl.awake g hq

theorem Inv.at_goTo_iff (hi : k.Inv) {c d : Cont} {t : ThreadPtr} :
    (k.goTo c).At t d ↔ t ≠ k.currentThread ∧ k.At t d ∨ t = k.currentThread ∧ c = d := by
  obtain ⟨T, hT, -⟩ := hi.running
  by_cases ht : t = k.currentThread
  · subst ht
    rw [at_goTo_self, hT]
    simp
  · rw [at_goTo_of_ne ht]
    simp [ht]

/-- A fault that comes to a lock changes nothing for the others. -/
theorem LockInv.start (hl : k.LockInv) (hi : k.Inv) (v : Int) (f : Nat) (c : Bool)
    (hhere : k.here.flight = none) : (k.goTo (.locking v f c)).LockInv := by
  have hold {t : ThreadPtr} {d : Cont} (hd : d.flight ≠ none) (h : k.At t d) :
      t ≠ k.currentThread := by
    rintro rfl
    exact hd (h.2 ▸ hhere)
  have hat {t : ThreadPtr} {d : Cont} (hd : d.flight ≠ none) (h : k.At t d) :
      (k.goTo (.locking v f c)).At t d := hi.at_goTo_iff.mpr (.inl ⟨hold hd h, h⟩)
  have hlock {g : Nat} {t : ThreadPtr} :
      (k.goTo (.locking v f c)).HasLock g t ↔ k.HasLock g t := by
    constructor
    · rintro ⟨w, b, h⟩
      rcases hi.at_goTo_iff.mp h with ⟨-, h⟩ | ⟨-, he⟩
      · exact ⟨w, b, h⟩
      · cases he
    · rintro ⟨w, b, h⟩
      exact ⟨w, b, hat (by simp [Cont.flight]) h⟩
  refine ⟨fun g => ?_, fun g t ht => ?_, fun g hq => ?_, fun {t T} hT hTj => ?_⟩
  · simp only [hlock]
    exact hl.free g
  · obtain ⟨w, b, h⟩ := hl.queued g t ht
    exact ⟨w, b, hat (by simp [Cont.flight]) h⟩
  · obtain ⟨t, ht, hnot⟩ := hl.awake g hq
    refine ⟨t, ?_, hnot⟩
    rcases ht with ⟨w, b, h⟩ | h
    · exact .inl ⟨w, b, hat (by simp [Cont.flight]) h⟩
    · exact .inr (hlock.mpr h)
  · have htc : t ≠ k.currentThread := hi.not_current_of_joined hT hTj
    exact (congrArg Cont.flight (Function.update_of_ne htc ..)).trans (hl.joined hT hTj)

theorem LockInv.take (hl : k.LockInv) (hi : k.Inv) {v : Int} {f : Nat} {c : Bool}
    (hhere : k.here = .locking v f c) (hone : (k.pageLock f).value ≠ 0) :
    ((k.lockTake f).goTo (.locked v f c)).LockInv := by
  have hat {t : ThreadPtr} {d : Cont} : ((k.lockTake f).goTo (.locked v f c)).At t d ↔
      t ≠ k.currentThread ∧ k.At t d ∨ t = k.currentThread ∧ .locked v f c = d :=
    hi.at_goTo_iff
  have hother {g : Nat} (hg : g ≠ f) :
      ((k.lockTake f).goTo (.locked v f c)).pageLock g = k.pageLock g :=
    Function.update_of_ne hg ..
  have hself : ((k.lockTake f).goTo (.locked v f c)).pageLock f =
      ⟨(k.pageLock f).value - 1, (k.pageLock f).queue⟩ := Function.update_self ..
  have hqueue (g : Nat) : (((k.lockTake f).goTo (.locked v f c)).pageLock g).queue =
      (k.pageLock g).queue := by
    by_cases hg : g = f
    · rw [hg, hself]
    · rw [hother hg]
  obtain ⟨hval, hnone⟩ | ⟨hval, -⟩ := hl.free f
  case inr => exact absurd hval hone
  -- the running thread held nothing, and holds this lock now
  have hlock {g : Nat} {t : ThreadPtr} : ((k.lockTake f).goTo (.locked v f c)).HasLock g t ↔
      k.HasLock g t ∨ t = k.currentThread ∧ g = f := by
    constructor
    · rintro ⟨w, b, h⟩
      rcases hat.mp h with ⟨-, h⟩ | ⟨ht, he⟩
      · exact .inl ⟨w, b, h⟩
      · cases he
        exact .inr ⟨ht, rfl⟩
    · rintro (⟨w, b, h⟩ | ⟨rfl, rfl⟩)
      · refine ⟨w, b, hat.mpr (.inl ⟨?_, h⟩)⟩
        rintro rfl
        cases hhere.symm.trans h.2
      · exact ⟨v, c, hat.mpr (.inr ⟨rfl, rfl⟩)⟩
  refine ⟨fun g => ?_, fun g t ht => ?_, fun g hq => ?_, fun {t T} hT hTj => ?_⟩
  · by_cases hg : g = f
    · subst hg
      rw [hself, hval]
      refine .inr ⟨rfl, k.currentThread, hlock.mpr (.inr ⟨rfl, rfl⟩), fun t ht => ?_⟩
      rcases hlock.mp ht with h | h
      · exact absurd h (hnone t)
      · exact h.1
    · rw [hother hg]
      simpa only [hlock, hg, and_false, or_false] using hl.free g
  · rw [hqueue] at ht
    obtain ⟨w, b, h⟩ := hl.queued g t ht
    refine ⟨w, b, hat.mpr (.inl ⟨?_, h⟩)⟩
    rintro rfl
    exact hl.current_not_queued hi g ht
  · rw [hqueue] at hq ⊢
    obtain ⟨t, ht, hnot⟩ := hl.awake g hq
    refine ⟨t, ?_, hnot⟩
    rcases ht with ⟨w, b, h⟩ | h
    · by_cases htc : t = k.currentThread
      · subst htc
        cases hhere.symm.trans h.2
        exact .inr (hlock.mpr (.inr ⟨rfl, rfl⟩))
      · exact .inl ⟨w, b, hat.mpr (.inl ⟨htc, h⟩)⟩
    · exact .inr (hlock.mpr (.inl h))
  · have hT' : k.live t = some T := hT
    have htc : t ≠ k.currentThread := by
      rintro rfl
      have := hl.joined hT' hTj
      rw [show k.cont k.currentThread = .locking v f c from hhere] at this
      cases this
    exact (congrArg Cont.flight (Function.update_of_ne htc ..)).trans (hl.joined hT' hTj)

theorem lockV_pageLock (k : Kernel) (f : Nat) : (k.lockV f).pageLock =
    Function.update k.pageLock f ⟨(k.pageLock f).value + 1, (k.pageLock f).queue.tail⟩ := by
  unfold lockV
  split <;> rename_i h <;> rw [h] <;> rfl

theorem LockInv.give (hl : k.LockInv) (hi : k.Inv) {v : Int} {f : Nat} {c : Bool} {d : Cont}
    (hhere : k.here = .locked v f c) (hd : d.flight = none) :
    ((k.lockV f).goTo d).LockInv := by
  obtain ⟨st, r, l, hV⟩ := k.lockV_eq f
  have hcont : ((k.lockV f).goTo d).cont = (k.goTo d).cont := by rw [hV]; rfl
  have hlive : ((k.lockV f).goTo d).live = k.live := by rw [hV]; rfl
  have hat {t : ThreadPtr} {b : Cont} (hb : b.flight ≠ none) :
      ((k.lockV f).goTo d).At t b ↔ t ≠ k.currentThread ∧ k.At t b := by
    have h := hi.at_goTo_iff (c := d) (d := b) (t := t)
    rw [At, hcont, hlive]
    refine Iff.trans (Iff.of_eq rfl) (h.trans ⟨?_, .inl⟩)
    rintro (h | ⟨-, rfl⟩)
    · exact h
    · exact absurd hd hb
  have hother {g : Nat} (hg : g ≠ f) : ((k.lockV f).goTo d).pageLock g = k.pageLock g :=
    (congrFun (k.lockV_pageLock f) g).trans (Function.update_of_ne hg ..)
  have hself : ((k.lockV f).goTo d).pageLock f =
      ⟨(k.pageLock f).value + 1, (k.pageLock f).queue.tail⟩ :=
    (congrFun (k.lockV_pageLock f) f).trans (Function.update_self ..)
  have hcur : k.HasLock f k.currentThread := ⟨v, c, hi.at_here hhere⟩
  obtain ⟨-, hnone⟩ | ⟨hval, t₀, -, honly⟩ := hl.free f
  case inl => exact absurd hcur (hnone _)
  have hlock {g : Nat} {t : ThreadPtr} : ((k.lockV f).goTo d).HasLock g t ↔
      t ≠ k.currentThread ∧ k.HasLock g t := by
    simp only [HasLock, hat (b := .locked _ g _) (by simp [Cont.flight]), exists_and_left]
  refine ⟨fun g => ?_, fun g t ht => ?_, fun g hq => ?_, fun {t T} hT hTj => ?_⟩
  · by_cases hg : g = f
    · subst hg
      rw [hself, hval]
      refine .inl ⟨rfl, fun t ht => ?_⟩
      obtain ⟨hne, h⟩ := hlock.mp ht
      exact hne ((honly t h).trans (honly _ hcur).symm)
    · rw [hother hg]
      -- the running thread holds no other lock
      have hsame (t : ThreadPtr) : ((k.lockV f).goTo d).HasLock g t ↔ k.HasLock g t := by
        refine hlock.trans ⟨fun h => h.2, fun h => ⟨?_, h⟩⟩
        rintro rfl
        exact hg (h.unique hcur)
      simpa only [hsame] using hl.free g
  · have ht' : t ∈ (k.pageLock g).queue := by
      by_cases hg : g = f
      · subst hg
        rw [hself] at ht
        exact List.mem_of_mem_tail ht
      · rwa [hother hg] at ht
    obtain ⟨w, b, h⟩ := hl.queued g t ht'
    refine ⟨w, b, (hat (by simp [Cont.flight])).mpr ⟨?_, h⟩⟩
    rintro rfl
    exact hl.current_not_queued hi g ht'
  · by_cases hg : g = f
    · -- the thread that is woken is the one that is awake
      subst hg
      rw [hself] at hq ⊢
      have hn := hl.queue_nodup hi g
      have hnot := hl.current_not_queued hi g
      have hqd := hl.queued g
      cases hqueue : (k.pageLock g).queue with
      | nil =>
        rw [hqueue] at hq
        exact absurd rfl hq
      | cons x rest =>
        rw [hqueue] at hn hnot hqd
        obtain ⟨w, b, h⟩ := hqd x List.mem_cons_self
        refine ⟨x, .inl ⟨w, b, (hat (by simp [Cont.flight])).mpr ⟨?_, h⟩⟩,
          (List.nodup_cons.mp hn).1⟩
        rintro rfl
        exact hnot List.mem_cons_self
    · rw [hother hg] at hq ⊢
      obtain ⟨t, ht, hnot⟩ := hl.awake g hq
      refine ⟨t, ?_, hnot⟩
      rcases ht with ⟨w, b, h⟩ | h
      · refine .inl ⟨w, b, (hat (by simp [Cont.flight])).mpr ⟨?_, h⟩⟩
        rintro rfl
        cases hhere.symm.trans h.2
      · refine .inr (hlock.mpr ⟨?_, h⟩)
        rintro rfl
        exact hg (h.unique hcur)
  · rw [hlive] at hT
    rw [hcont]
    by_cases htc : t = k.currentThread
    · subst htc
      exact (congrArg Cont.flight (Function.update_self ..)).trans hd
    · exact (congrArg Cont.flight (Function.update_of_ne htc ..)).trans (hl.joined hT hTj)

/-! ## Events and runs -/

/-- Every event but the three of a page fault leaves the locks and the threads at them
alone. -/
theorem act_sameFlights (hi : k.Inv) (hfault : ∀ addr random, e ≠ .fault addr random)
    (hlock : ∀ fire, e ≠ .lock fire) (hload : ∀ fire, e ≠ .load fire)
    (h : k.act e = .ok (k', n)) : SameFlights k k' := by
  have hflight {c : Cont} (hc : k.here = c) (hn : c.flight = none) : k.here.flight = none := by
    rw [hc]
    exact hn
  have hend (r : Registers) (hhere : k.here.flight = none) (ha : k.AtHome)
      (ht : { k with registers := r }.terminate = .ok k') : SameFlights k k' := by
    obtain ⟨R, hR, hRj⟩ := hi.running
    obtain ⟨s, hs, -⟩ := hi.procs.space hR
    have hr : { k with registers := r }.Inv := hi.registers r (by simp)
    obtain ⟨_, _, _, -, -, hk⟩ :=
      terminate_eq_ok (k := { k with registers := r }) (live_eq_some hR).2 hs ht
    have hcont : k'.cont = k.cont := by rw [hk]
    have hlive := (hr.procs.terminate hR hRj ha.dying ht).2
    refine ⟨by rw [hk], fun t c hc => ?_⟩
    rw [At, At, hcont, hlive]
    split
    · rename_i htc
      subst htc
      refine ⟨fun h => absurd h.1 (by simp), fun h => absurd ?_ hc⟩
      rw [← h.2]
      exact hhere
    · rw [Option.isSome_map]
      rfl
  have hregs (r : Registers) : SameFlights k { k with registers := r } := .of_eq rfl rfl rfl
  cases acts_of_act h with
  | instr _ h1 => exact (accesses_memoryOnly h1).sameFlights.trans (.of_eq rfl rfl rfl)
  | tick _ => exact .of_eq rfl rfl rfl
  | @fault addr random => exact absurd rfl (hfault addr random)
  | @lock fire => exact absurd rfl (hlock fire)
  | @load fire => exact absurd rfl (hload fire)
  | trap hu =>
    exact (hregs _).trans (SameFlights.goTo (hflight hu rfl) (c := .call) rfl)
  | copy _ h1 => exact (access_memoryOnly h1).sameFlights
  | @ret result hc =>
    cases result with
    | none => exact .goTo (hflight hc rfl) rfl
    | some r => exact (hregs _).trans (SameFlights.goTo (hflight hc rfl) (c := .user) rfl)
  | exec hc h =>
    obtain ⟨hi', ha'⟩ := hi.back hc
    have hback : SameFlights k (k.goTo .user) := .goTo (hflight hc rfl) rfl
    rcases exec_cases hi' ha' h with ⟨-, rfl, -⟩ | ⟨x, k1, -, hnew, -, rfl⟩
    · exact hback
    · obtain ⟨hs, hcont, -, hlocks, -⟩ :=
        exec_spawned (r := BitVec.ofNat 32 (k.goTo .user).threadID) hnew
      refine hback.trans ⟨hlocks, fun t c hfl => ?_⟩
      have hlive := hs.live hi'.procs t
      rw [At, At, hcont, hlive, Function.update_apply]
      split
      · rename_i htn
        refine ⟨fun h => absurd ?_ hfl, fun h => ?_⟩
        · rw [← h.2]
          rfl
        · rw [htn, hi'.procs.live_nextThread] at h
          exact absurd h.1 (by simp)
      · rfl
  | join hc h =>
    obtain ⟨hi', ha'⟩ := hi.back hc
    have hback : SameFlights k (k.goTo .user) := .goTo (hflight hc rfl) rfl
    rcases join_target hi' ha' h with ⟨-, rfl, -⟩ | ⟨c, -, -, rfl⟩
    · exact hback
    · refine hback.trans ⟨rfl, fun t c _ => ?_⟩
      rw [At, At, live_map, Option.isSome_map]
  | yield hc => exact .goTo (hflight hc rfl) rfl
  | exit hc h1 =>
    exact hend k.registers (hflight hc rfl) (hi.atHome_of_atUser (.inr hc)) h1
  | fatal hu h1 =>
    refine hend _ ?_ (hi.atHome_of_atUser hu) h1
    rcases hu with hu | hu
    · exact hflight hu rfl
    · exact hflight hu rfl
  | enable hr => exact .goTo (hflight hr rfl) rfl
  | @create k1 he h1 =>
    obtain ⟨_, _, -, -, hk, hl, -⟩ := create_eq_ok h1
    have hcont : k1.cont = k.cont := by rw [hk]
    have hhere : k1.here = k.here := by
      rw [here, here, hcont, show k1.currentThread = k.currentThread by rw [hk]]
    have hsame : SameFlights k k1 := .of_eq (by rw [hk]) hcont hl
    exact hsame.trans (.goTo (hhere ▸ hflight he rfl) rfl)

theorem act_lockInv (hi : k.Inv) (hl : k.LockInv) (h : k.act e = .ok (k', n)) :
    k'.LockInv := by
  have hj {t : ThreadPtr} {T : Thread} (hT : k'.live t = some T) (hTj : T.isJoined = true) :=
    act_joined hi hl.joined h hT hTj
  cases e with
  | lock fire =>
    obtain ⟨v, f, c, hhere, ⟨hz, rfl⟩ | ⟨hnz, rfl⟩⟩ := lock_spec h
    · exact hl.wait hi hhere hz
    · exact hl.take hi hhere hnz
  | load fire =>
    obtain ⟨v, f, c, s, k1, hhere, -, hfill, rfl, -⟩ := load_cases h
    have hm := fillPage_memoryOnly hfill
    have hi1 : k1.Inv := hi.memoryOnly hm (by simp)
    have hcont : k1.cont = k.cont := (congrArg Kernel.cont hm.rest :)
    have hcur : k1.currentThread = k.currentThread := (congrArg Kernel.currentThread hm.rest :)
    refine (hl.memoryOnly hm).give hi1 (by rw [here, hcont, hcur]; exact hhere) ?_
    cases c <;> rfl
  | fault addr random =>
    cases acts_of_act h with
    | fault hu hflt h1 =>
      obtain ⟨s, f, k1, -, hsel, hbranch⟩ := pageFault_cases h1
      obtain ⟨hm, -⟩ := selectPage_memoryOnly hsel
      have hraise : (k.raise addr).LockInv := hl.sameFlights (.of_eq rfl rfl rfl) hl.joined
      have hri : (k.raise addr).Inv := hi.registers _ (by simp)
      rcases hbranch with ⟨-, rfl⟩ | ⟨-, hfill⟩
      · have hm' : MemoryOnly (k.raise addr) (k1.appendPage f) := hm.trans (.of_eq rfl rfl rfl)
        refine (hraise.memoryOnly hm').start (hri.memoryOnly hm' (by simp)) _ _ _ ?_
        have hcont : (k1.appendPage f).cont = k.cont := (congrArg Kernel.cont hm.rest :)
        have hcur : (k1.appendPage f).currentThread = k.currentThread :=
          (congrArg Kernel.currentThread hm.rest :)
        rw [here, hcont, hcur]
        rcases hu with hu | hu
        · exact congrArg Cont.flight hu
        · exact congrArg Cont.flight hu
      · exact hraise.memoryOnly (hm.trans (fillPage_memoryOnly hfill))
  | _ =>
    exact hl.sameFlights (act_sameFlights hi (by simp) (by simp) (by simp) h) hj

theorem step_lockInv (hi : k.Inv) (hl : k.LockInv) (h : k.step e = .ok k') : k'.LockInv := by
  obtain ⟨⟨k1, n⟩, hact, h⟩ := bind_eq_ok.mp h
  have hl1 : k1.LockInv := act_lockInv hi hl hact
  obtain ⟨hrest, hlive, -⟩ := dispatch_frame h
  have hcont : k'.cont = k1.cont := (congrArg Kernel.cont hrest :)
  refine hl1.sameFlights (.of_eq (congrArg Kernel.pageLock hrest :) hcont hlive) ?_
  intro t T hT hTj
  rw [hlive] at hT
  rw [hcont]
  exact hl1.joined hT hTj

theorem boot_lockInv {c : Config} (h : boot c = .ok k) : k.LockInv := by
  obtain ⟨x, numPages, -, -, rfl⟩ := boot_eq_ok h
  refine ⟨fun f => .inl ⟨rfl, ?_⟩, fun f t ht => ?_, fun f hq => absurd rfl hq,
    fun _ _ => rfl⟩
  · rintro t ⟨v, c, -, hc⟩
    cases hc
  · cases ht

theorem lockInv_of_reachable (h : Reachable k) : k.LockInv := by
  obtain ⟨c, es, k0, hboot, hrun⟩ := h
  exact (hrun.inv (I := fun k => k.Inv ∧ k.LockInv)
    (fun _ _ _ hs hstep => ⟨step_inv hs.1 hstep, step_lockInv hs.1 hs.2 hstep⟩)
    ⟨boot_inv hboot, boot_lockInv hboot⟩).2

/-- A thread inside `loadPage` that sleeps at no lock is running or ready. -/
theorem LockInv.runnable (hl : k.LockInv) {cpu : Option ThreadPtr} (hs : k.Seated cpu)
    {f : Nat} {t : ThreadPtr} (h : k.Loads f t) (hq : t ∉ (k.pageLock f).queue) :
    cpu = some t ∨ t ∈ k.readyList := by
  have hflight : (k.live t).isSome ∧ ∃ v, (k.cont t).flight = some (v, f) := by
    rcases h with ⟨v, c, hlive, hc⟩ | ⟨v, c, hlive, hc⟩
    · exact ⟨hlive, v, by rw [hc]; rfl⟩
    · exact ⟨hlive, v, by rw [hc]; rfl⟩
  obtain ⟨hlive, v, hv⟩ := hflight
  obtain ⟨T, hT⟩ := Option.isSome_iff_exists.mp hlive
  have hTj : T.isJoined = false := by
    cases hj : T.isJoined with
    | false => rfl
    | true =>
      rw [hl.joined hT hj] at hv
      cases hv
  -- it is in one place, and that is no queue
  have hnone (g : Nat) : (k.pageLock g).queue.count t = 0 := by
    refine List.count_eq_zero.mpr fun hm => ?_
    obtain ⟨w, b, -, hc⟩ := hl.queued g t hm
    rw [hc] at hv
    cases hv
    exact hq hm
  have hseat := hs t
  unfold waiting at hseat
  simp only [hT, seats, hTj, hnone, Finset.sum_const_zero, if_false, Bool.false_eq_true] at hseat
  by_cases htc : cpu = some t
  · exact .inl htc
  · rw [if_neg htc] at hseat
    exact .inr (List.count_pos_iff.mp (by omega))

/-- In every state of every run, the lock of a frame is free and nobody is behind its
`P`, or exactly one thread is, and it is running or ready. Whoever sleeps at a lock is
at its `P`, and then another thread with that frame is running or ready: no wake-up
is lost. -/
theorem page_locks_sound (h : Reachable k) (f : Nat) :
    ((k.pageLock f).value = 1 ∧ (∀ t, ¬ k.HasLock f t) ∨
      (k.pageLock f).value = 0 ∧ ∃ t, k.HasLock f t ∧ (∀ t', k.HasLock f t' → t' = t) ∧
        (t = k.currentThread ∨ t ∈ k.readyList)) ∧
    (∀ t ∈ (k.pageLock f).queue, ∃ v c, k.At t (.locking v f c)) ∧
    ((k.pageLock f).queue ≠ [] →
      ∃ t, k.Loads f t ∧ (t = k.currentThread ∨ t ∈ k.readyList)) := by
  have hl := lockInv_of_reachable h
  have hrunnable {t : ThreadPtr} (ht : k.Loads f t) (hq : t ∉ (k.pageLock f).queue) :
      t = k.currentThread ∨ t ∈ k.readyList := by
    rcases hl.runnable h.inv.seated ht hq with hcpu | hready
    · exact .inl (Option.some.inj hcpu).symm
    · exact .inr hready
  refine ⟨?_, hl.queued f, fun hq => ?_⟩
  · rcases hl.free f with hfree | ⟨hz, t, ht, honly⟩
    · exact .inl hfree
    · exact .inr ⟨hz, t, ht, honly, hrunnable (.inr ht) (hl.hasLock_not_queued ht)⟩
  · obtain ⟨t, ht, hnot⟩ := hl.awake f hq
    exact ⟨t, ht, hrunnable ht hnot⟩

/-- As long as pages are read back from swap whole, no two faults have chosen the same
frame, and nobody ever has to wait for a lock. -/
theorem Framed.queue_nil (hk : k.Framed) (h : Reachable k) (f : Nat) :
    (k.pageLock f).queue = [] := by
  have hl := lockInv_of_reachable h
  have hhand {t : ThreadPtr} (ht : k.Loads f t) : k.frames.Holds f (.fault t) := by
    rcases ht with ⟨v, c, hlive, hcont⟩ | ⟨v, c, hlive, hcont⟩
    · exact ⟨v, frames_hand.mpr ⟨Option.isSome_iff_exists.mp hlive, by rw [hcont]; rfl⟩⟩
    · exact ⟨v, frames_hand.mpr ⟨Option.isSome_iff_exists.mp hlive, by rw [hcont]; rfl⟩⟩
  by_contra hq
  obtain ⟨t, ht, hnot⟩ := hl.awake f hq
  obtain ⟨t', hmem⟩ := List.exists_mem_of_ne_nil _ hq
  have heq := hk.frames.own.unique (hhand ht) (hhand (.inl (hl.queued f t' hmem)))
  cases heq
  exact hnot hmem

/-- The second process is behind the `P` of frame 1 while the first one goes on. -/
theorem page_locks_sound_sample : ∃ k : Kernel, Reachable k ∧ k.here = .user ∧
    (k.pageLock 1).value = 0 ∧ ∃ t, k.HasLock 1 t ∧ t ∈ k.readyList := by
  have hdemo : (Config.sample 1).reaches suspendedSample (fun k =>
      decide (k.here = .user ∧ (k.pageLock 1).value = 0)) = true := by
    decide +kernel
  obtain ⟨k0, k, hboot, hrun, hp⟩ := Config.reaches_iff.mp hdemo
  have hk : Reachable k := ⟨_, _, k0, hboot, hrun⟩
  obtain ⟨hhere, hz⟩ := of_decide_eq_true hp
  refine ⟨k, hk, hhere, hz, ?_⟩
  obtain ⟨hone, -⟩ | ⟨-, t, ht, -, hrunnable⟩ := (page_locks_sound hk 1).1
  · rw [hz] at hone
    cases hone
  · refine ⟨t, ht, hrunnable.resolve_left ?_⟩
    rintro rfl
    obtain ⟨v, c, -, hcont⟩ := ht
    cases hcont.symm.trans hhere

end Kernel
end Nachos

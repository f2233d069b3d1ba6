import Nachos.Userprog.PageLocks

/-! How the machine comes to a halt, and how processes can hang. `Thread::Sleep` with
nobody ready halts the machine. If processes only join later ones, which nobody waits
for yet (a parent its children, for one), that does not happen before every process
has finished. Processes that wait for each other in a circle never run again. -/

namespace Nachos
open Lib
namespace Kernel

variable {k k' k1 : Kernel} {n : Next} {e : Event}

/-- `step_procStep` for the stretch of code in front of the dispatch. -/
theorem act_procStep (hi : k.Inv) (h : k.act e = .ok (k1, n)) : k.ProcStep e k1 := by
  obtain ⟨T, hT, hTj⟩ := hi.running
  cases act_acted hi h with
  | moved hl hn => exact .same hl.live hn
  | built hopens hnew =>
    have hp : (k.goTo .user).Processes :=
      hi.procs.transfer (.of_eq rfl rfl rfl rfl rfl rfl fun _ => rfl)
    exact .spawn fun t => (exec_spawned (r := BitVec.ofNat 32 k.threadID) hnew).1.live hp t
  | joined ht => exact .join ht fun t => live_map (k.goTo .user) _ t
  | @ended _ r _ he ha ht =>
    have hr : { k with registers := r }.Inv := hi.registers r (by simp)
    exact .finish he hT (hr.procs.terminate hT hTj ha.dying ht).2
  | created hc =>
    obtain ⟨_, _, -, -, -, hl, -⟩ := create_eq_ok hc
    exact .same hl nofun

/-! ## Orderly joins -/

/-- A join that puts its caller to sleep names a thread that was started later than the
caller, and that nobody waits for yet. -/
def OrderlyJoin (k : Kernel) (e : Event) : Prop :=
  e = .join → ∀ c, k.joinTarget = some c → ∃ T C, k.live k.currentThread = some T ∧
    k.live c = some C ∧ T.ID < C.ID ∧ C.parent = none

/-- Every joined thread waits for one that was started later. -/
def Ordered (k : Kernel) : Prop :=
  ∀ t T, k.live t = some T → T.isJoined = true →
    ∃ c C, k.live c = some C ∧ C.parent = some t ∧ T.ID < C.ID

theorem wakeEffect_ID (p : Option ThreadPtr) (x : ThreadPtr) (X : Thread) :
    (wakeEffect p x X).ID = X.ID := by
  unfold wakeEffect
  split <;> rfl

theorem Ordered.procStep (ho : k.Ordered) (hi : k.Inv) (hG : k.OrderlyJoin e)
    (h : k.ProcStep e k') : k'.Ordered := by
  intro t T' hT' hj'
  cases h with
  | same hl =>
    rw [hl] at hT' ⊢
    exact ho t T' hT' hj'
  | spawn hl =>
    rw [hl] at hT'
    split at hT'
    · cases hT'
      cases hj'
    · obtain ⟨c, C, hC, hp, hlt⟩ := ho t T' hT' hj'
      exact ⟨c, C, by rw [hl, if_neg (hi.procs.live_ne hC)]; exact hC, hp, hlt⟩
  | @join c _ htarget hl =>
    obtain ⟨R, C, hR, hC, hlt, hfree⟩ := hG rfl c htarget
    rw [hl] at hT'
    obtain ⟨T, hT, rfl⟩ := Option.map_eq_some_iff.mp hT'
    by_cases hcur : t = k.currentThread
    · subst hcur
      rw [hR] at hT
      cases hT
      exact ⟨c, joinEffect k.currentThread c c C, by rw [hl, hC]; rfl, by simp [joinEffect], hlt⟩
    · simp only [joinEffect, if_neg hcur] at hj'
      obtain ⟨c', C', hC', hp, hlt'⟩ := ho t T hT hj'
      -- the child of `t` is not the one that is joined now
      have hne : c' ≠ c := by
        rintro rfl
        rw [hC] at hC'
        cases hC'
        rw [hfree] at hp
        cases hp
      exact ⟨c', joinEffect k.currentThread c c' C', by rw [hl, hC']; rfl,
        by simp [joinEffect, hne, hp], hlt'⟩
  | @finish _ R _ he hr hl =>
    rw [hl] at hT'
    split at hT'
    · cases hT'
    · obtain ⟨T, hT, rfl⟩ := Option.map_eq_some_iff.mp hT'
      have hwake : R.parent ≠ some t := by
        intro hp
        simp [wakeEffect, hp] at hj'
      simp only [wakeEffect, if_neg hwake] at hj' ⊢
      obtain ⟨c, C, hC, hp, hlt⟩ := ho t T hT hj'
      have hcur : c ≠ k.currentThread := by
        rintro rfl
        rw [hr] at hC
        cases hC
        exact hwake hp
      exact ⟨c, wakeEffect R.parent c C, by rw [hl, if_neg hcur, hC]; rfl,
        by rw [wakeEffect_parent]; exact hp, by rw [wakeEffect_ID]; exact hlt⟩

theorem boot_ordered {c : Config} (h : boot c = .ok k) : k.Ordered := by
  intro t T hT hj
  obtain ⟨x, numPages, -, -, rfl⟩ := boot_eq_ok h
  change Function.update (fun _ => none) 0 _ t = some T at hT
  rw [Function.update_apply] at hT
  split at hT
  · cases hT
    cases hj
  · cases hT

/-! ## Halting -/

theorem run_ne_halted (k : Kernel) (next : ThreadPtr) : k.run next ≠ .error .halted := by
  unfold run
  dsimp only
  split
  · simp
  · refine bind_ne_error ?_ fun k1 _ => ?_
    · unfold destroyFinished
      split
      · simp
      · split <;> simp
    · unfold restoreState
      split
      · simp
      · unfold restoreSpace
        split <;> simp

/-- Only a thread that goes to sleep with nobody ready halts the machine. -/
theorem dispatch_halted (h : k.dispatch n = .error .halted) : n = .sleep ∧ k.readyList = [] := by
  have hyield (k : Kernel) : k.yield ≠ .error .halted := by
    unfold yield
    split
    · exact nofun
    · exact run_ne_halted _ _
  cases n with
  | stay => cases h
  | tick fire =>
    cases fire with
    | false => cases h
    | true => exact absurd h (hyield _)
  | yield => exact absurd h (hyield _)
  | sleep =>
    change k.sleep = .error .halted at h
    unfold sleep at h
    split at h
    · exact ⟨rfl, ‹_›⟩
    · exact absurd h (run_ne_halted _ _)

/-- When the machine halts, everybody left is asleep in `SC_Join`. -/
theorem joined_of_halted (hp : k.Paused .sleep) (hl : k.LockInv) (hr : k.readyList = [])
    {t : ThreadPtr} {T : Thread} (hT : k.live t = some T) : T.isJoined = true := by
  have hs : k.Seated none := hp.seated
  -- nobody waits at a lock: somebody else would be ready
  have hqueue (f : Nat) : (k.pageLock f).queue = [] := by
    by_contra hq
    obtain ⟨x, hx, hnot⟩ := hl.awake f hq
    rcases hl.runnable hs hx hnot with h | h
    · cases h
    · rw [hr] at h
      cases h
  have hseat := hs t
  unfold waiting at hseat
  simp only [hr, hqueue, List.count_nil, Finset.sum_const_zero, hT, seats] at hseat
  cases hj : T.isJoined with
  | true => rfl
  | false => simp [hj] at hseat

/-- If everybody left is joined, each by a later one, nobody is left. -/
theorem Ordered.nobody (ho : k.Ordered) (hp : k.Processes)
    (hall : ∀ {t T}, k.live t = some T → T.isJoined = true) (t : ThreadPtr) :
    k.live t = none := by
  -- by induction on how many IDs are still above that of `t`
  have hind (m : Nat) : ∀ t T, k.live t = some T → k.threadID - T.ID ≠ m := by
    induction m using Nat.strongRecOn with
    | _ m ih =>
      intro t T hT hm
      obtain ⟨c, C, hC, -, hlt⟩ := ho t T hT (hall hT)
      have := hp.idLt hC
      exact ih (k.threadID - C.ID) (by omega) c C hC rfl
  cases h : k.live t with
  | none => rfl
  | some T => exact absurd rfl (hind _ t T h)

/-- Along a run from boot in which processes join only threads started later than
themselves that nobody waits for yet, the machine halts only in the `Thread::Finish` of
the last process. -/
theorem halts_when_all_done {c : Config} {k0 : Kernel} {es : List Event}
    (hboot : boot c = .ok k0) (hrun : Run step k0 es k)
    (hjoins : Guarded step OrderlyJoin k0 es) (hlast : k.OrderlyJoin e)
    (hact : k.act e = .ok (k1, n)) (hhalt : k1.dispatch n = .error .halted) :
    e.Finishes ∧ ∀ t, k1.live t = none := by
  obtain ⟨hi, hl, ho⟩ : k.Inv ∧ k.LockInv ∧ k.Ordered :=
    hrun.guarded_inv (I := fun k => k.Inv ∧ k.LockInv ∧ k.Ordered)
      (fun _ _ _ hs hG hstep => ⟨step_inv hs.1 hstep, step_lockInv hs.1 hs.2.1 hstep,
        hs.2.2.procStep hs.1 hG (step_procStep hs.1 hstep)⟩)
      hjoins ⟨boot_inv hboot, boot_lockInv hboot, boot_ordered hboot⟩
  obtain ⟨rfl, hr⟩ := dispatch_halted hhalt
  have hp := act_paused hi hact
  have hl1 := act_lockInv hi hl hact
  have hps := act_procStep hi hact
  have hnone := (ho.procStep hi hlast hps).nobody hp.procs (joined_of_halted hp hl1 hr)
  refine ⟨?_, hnone⟩
  -- unless it finishes, the running thread is still there
  obtain ⟨T, hT, -⟩ := hi.running
  have hgone := hnone k.currentThread
  cases hps with
  | same hlive => rw [hlive, hT] at hgone; cases hgone
  | spawn hlive =>
    rw [hlive, if_neg (hi.procs.live_ne hT), hT] at hgone
    cases hgone
  | join _ hlive => rw [hlive, hT] at hgone; cases hgone
  | finish he => exact he

/-- The first process starts another, joins it and is woken by its exit; then it exits,
and the machine halts. -/
theorem halts_when_all_done_sample : ∃ (k0 k k1 : Kernel) (es : List Event),
    boot (.sample 1) = .ok k0 ∧ Run step k0 es k ∧ .join ∈ es ∧
    k.act .exit = .ok (k1, .sleep) ∧ k1.dispatch .sleep = .error .halted ∧
    ∀ t, k1.live t = none := by
  have hdemo : (Config.sample 1).reaches (execSample ++ (joinSample 1).dropLast) (fun k =>
      decide (k.joinTarget = some 1) &&
      decide ((k.live k.currentThread).map Thread.ID = some 0) &&
      decide ((k.live 1).map (fun C => (C.ID, C.parent)) = some (1, none)) &&
      continues step k [.join, .enable false, .create, .trap, .exit, .trap] fun k2 =>
        decide ((k2.act .exit).toOption.map (fun r => (r.2, r.1.readyList)) =
          some (.sleep, []))) = true := by
    decide +kernel
  obtain ⟨k0, k, hboot, hrun, hp⟩ := Config.reaches_iff.mp hdemo
  simp only [Bool.and_eq_true, decide_eq_true_eq] at hp
  obtain ⟨⟨⟨htarget, hcur⟩, hchild⟩, hcont⟩ := hp
  obtain ⟨k2, hrun2, hend⟩ := continues_iff.mp hcont
  obtain ⟨T, hT, hTid⟩ := Option.map_eq_some_iff.mp hcur
  obtain ⟨C, hC, hCid⟩ := Option.map_eq_some_iff.mp hchild
  obtain ⟨hCid, hCp⟩ := Prod.mk.inj hCid
  have hquiet {es : List Event} {s : Kernel} (h : ∀ e ∈ es, e ≠ .join) :
      Guarded step OrderlyJoin s es := Guarded.of_events fun e he _ hj => absurd hj (h e he)
  have horderly : k.OrderlyJoin .join := by
    intro _ c hc
    rw [htarget] at hc
    cases hc
    exact ⟨T, C, hT, hC, by omega, hCp⟩
  obtain ⟨⟨k1, n⟩, hact, hn⟩ : ∃ r, k2.act .exit = .ok r ∧ (r.2, r.1.readyList) = (.sleep, []) := by
    cases hact : k2.act .exit with
    | error e => rw [hact] at hend; simp [Except.toOption] at hend
    | ok r =>
      rw [hact] at hend
      exact ⟨r, rfl, by simpa [Except.toOption] using hend⟩
  obtain ⟨rfl, hready⟩ := Prod.mk.inj hn
  have hhalt : k1.dispatch .sleep = .error .halted := by
    change k1.sleep = _
    unfold sleep
    dsimp only at hready
    rw [hready]
  have hguard : Guarded step OrderlyJoin k0 (execSample ++ (joinSample 1).dropLast ++
      [.join, .enable false, .create, .trap, .exit, .trap]) := by
    refine Guarded.append (hquiet (by simp [execSample, joinSample])) fun t ht => ?_
    rw [ht.unique hrun]
    exact ⟨horderly, fun _ _ => hquiet (by simp)⟩
  have hexit : k2.OrderlyJoin .exit := fun h => by cases h
  refine ⟨k0, k2, k1, _, hboot, hrun.append hrun2, by simp, hact, hhalt, ?_⟩
  exact (halts_when_all_done hboot (hrun.append hrun2) hguard hexit hact hhalt).2

/-! ## Waiting in a circle -/

/-- Each thread of `S` is asleep in `SC_Join`, and only another of `S` can wake it. -/
def Deadlocked (k : Kernel) (S : Set ThreadPtr) : Prop := ∀ t ∈ S, ∃ c ∈ S, k.Waits t c

theorem Deadlocked.step {S : Set ThreadPtr} (hi : k.Inv) (hS : k.Deadlocked S)
    (h : k.step e = .ok k') : k'.Deadlocked S := by
  intro t ht
  obtain ⟨c, hc, hw⟩ := hS t ht
  refine ⟨c, hc, hw.step hi (fun hfin => ?_) h⟩
  -- the thread that would have to finish is asleep itself
  obtain ⟨_, _, C, hC, hCj, -⟩ := hS c hc
  exact hi.not_current_of_joined hC hCj hfin.2.symm

theorem Inv.waits_of_child (hi : k.Inv) {t c : ThreadPtr} {T C : Thread}
    (hT : k.live t = some T) (hTj : T.isJoined = true) (hC : k.live c = some C)
    (hp : C.parent = some t) : k.Waits t c :=
  ⟨T, hT, hTj, fun hx hxp => hi.procs.onlyChild hx hC hxp hp⟩

/-- Threads that wait for each other in a circle stay so: whatever the others do,
none of them runs again or gets on any queue, and none is ever destroyed. -/
theorem deadlocked_forever {S : Set ThreadPtr} {es : List Event} (hk : Reachable k)
    (hS : k.Deadlocked S) (hrun : Run step k es k') :
    ∀ t ∈ S, k'.Asleep t ∧ t ≠ k'.currentThread := by
  obtain ⟨hi, hS'⟩ := hrun.inv (I := fun k => k.Inv ∧ k.Deadlocked S)
    (fun _ _ _ hs hstep => ⟨step_inv hs.1 hstep, hs.2.step hs.1 hstep⟩) ⟨hk.inv, hS⟩
  intro t ht
  obtain ⟨_, _, T, hT, hTj, -⟩ := hS' t ht
  exact ⟨hi.asleep_iff.mpr ⟨T, hT, hTj⟩, hi.not_current_of_joined hT hTj⟩

/-- The first process starts two others, which join each other. -/
theorem deadlocked_forever_sample : ∃ k : Kernel, Reachable k ∧ k.Deadlocked {1, 2} ∧
    ∀ es k', Run step k es k' → k'.currentThread ≠ 1 ∧ k'.currentThread ≠ 2 := by
  have hdemo : (Config.sample 1).reaches (execSample ++ execSample ++ [.trap, .yield] ++
      [.enable false, .create] ++ joinSample 2 ++ [.enable false, .create] ++ joinSample 1)
      (fun k =>
        decide ((k.live 1).map (fun T => (T.isJoined, T.parent)) = some (true, some 2)) &&
        decide ((k.live 2).map (fun T => (T.isJoined, T.parent)) = some (true, some 1))) =
      true := by
    decide +kernel
  obtain ⟨k0, k, hboot, hrun, hp⟩ := Config.reaches_iff.mp hdemo
  simp only [Bool.and_eq_true, decide_eq_true_eq, Option.map_eq_some_iff, Prod.mk.injEq] at hp
  obtain ⟨⟨T, hT, hTj, hTp⟩, U, hU, hUj, hUp⟩ := hp
  have hk : Reachable k := ⟨_, _, k0, hboot, hrun⟩
  have hS : k.Deadlocked {1, 2} := by
    rintro t (rfl | rfl)
    · exact ⟨2, .inr rfl, hk.inv.waits_of_child hT hTj hU hUp⟩
    · exact ⟨1, .inl rfl, hk.inv.waits_of_child hU hUj hT hTp⟩
  refine ⟨k, hk, hS, fun es k' hr => ⟨?_, ?_⟩⟩
  · exact (deadlocked_forever hk hS hr 1 (.inl rfl)).2.symm
  · exact (deadlocked_forever hk hS hr 2 (.inr rfl)).2.symm

end Kernel
end Nachos

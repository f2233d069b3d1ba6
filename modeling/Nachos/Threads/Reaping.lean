import Nachos.Threads.Places

/-! Finished threads are destroyed. A thread cannot free its own stack, so
`Finish` leaves it in `threadToBeDestroyed`, for the code behind `SWITCH` of
whoever runs next. A thread that runs for the first time does not come from
`SWITCH`: `processCreator` makes up for that in user processes, and nothing does
in the other threads. -/

namespace Nachos.Synch
open Lib

namespace State

variable {k k' : State} {t x : ThreadPtr} {s : SemPtr}

/-- A thread that starts without a look at `threadToBeDestroyed` does so only when
nobody is waiting there. -/
def Prompt (k : State) (e : Event) : Prop := e = .start false → k.threadToBeDestroyed = none

/-- No finished thread is forgotten. -/
def Kept (k : State) : Prop := ∀ t, k.life t = .finished → k.threadToBeDestroyed = some t

/-- Besides, only fresh threads are dispatched between `Finish` and the deletion, and
none of them gets past the beginning of `processCreator`. -/
structure Reaped (k : State) : Prop where
  waits : ∀ x, k.threadToBeDestroyed = some x → k.cpu = .running →
    k.point k.currentThread = .root ∨ k.point k.currentThread = .enabled
  kept : k.Kept

/-- Every finished thread has been destroyed. -/
structure Swept (k : State) : Prop where
  none : k.threadToBeDestroyed = none
  life : ∀ t, k.life t ≠ .finished

theorem Swept.reaped (h : k.Swept) : k.Reaped :=
  ⟨fun x hx => (by rw [h.none] at hx; cases hx), fun t ht => absurd ht (h.life t)⟩

/-- A change of anything else. -/
theorem Swept.congr (k' : State) (h : k.Swept)
    (hd : k'.threadToBeDestroyed = k.threadToBeDestroyed) (hl : k'.life = k.life) : k'.Swept :=
  ⟨hd.trans h.none, fun t => by rw [hl]; exact h.life t⟩

namespace Reaped

theorem swept_of_none (h : k.Reaped) (hd : k.threadToBeDestroyed = none) : k.Swept := by
  refine ⟨hd, fun t ht => ?_⟩
  have := h.kept t ht
  rw [hd] at this
  cases this

/-- A thread that is past its beginning is not waited for. -/
theorem swept (h : k.Reaped) (hr : k.cpu = .running) (hp : k.point k.currentThread ≠ .root)
    (hp' : k.point k.currentThread ≠ .enabled) : k.Swept := by
  refine h.swept_of_none ?_
  cases hd : k.threadToBeDestroyed with
  | none => rfl
  | some x => exact absurd (h.waits x hd hr) (not_or.mpr ⟨hp, hp'⟩)

theorem inCode (h : k.Reaped) (hc : k.InCode) : k.Swept :=
  h.swept hc.1 (by rw [hc.2]; simp) (by rw [hc.2]; simp)

end Reaped

theorem destroyFinished_swept (hd : k.destroyFinished = .ok k') (h : k.Kept) : k'.Swept := by
  rcases destroyFinished_cases hd with ⟨hnone, rfl⟩ | ⟨x, hx, -, rfl⟩
  · refine ⟨hnone, fun t ht => ?_⟩
    have := h t ht
    rw [hnone] at this
    cases this
  · refine ⟨rfl, fun t ht => ?_⟩
    dsimp only at ht
    by_cases htx : t = x
    · rw [htx, Function.update_self] at ht
      cases ht
    · rw [Function.update_of_ne htx] at ht
      have := h t ht
      rw [hx] at this
      cases this
      exact htx rfl

theorem run_reaped {next : ThreadPtr} (hr : k.run next = .ok k') (h : k.Kept) : k'.Reaped := by
  rcases run_cases hr with ⟨hroot, rfl⟩ | ⟨-, hd⟩
  · exact ⟨fun _ _ _ => .inl hroot, h⟩
  · exact (destroyFinished_swept hd h).reaped

theorem test_swept (ht : k.test s = .ok k') (h : k.Swept) : k'.Swept := by
  rcases test_cases ht with ⟨-, rfl⟩ | ⟨-, rfl⟩
  · exact h.congr _ rfl rfl
  · exact h.congr _ rfl rfl

theorem v_reaped (h : k.Reaped) (hv : k.v s = .ok k') : k'.Reaped := by
  rcases v_cases hv with ⟨-, rfl⟩ | ⟨t, rest, -, rfl⟩
  · exact ⟨h.waits, h.kept⟩
  · exact ⟨h.waits, h.kept⟩

theorem finish_reaped (h : k.Swept) : k.finish.Reaped := by
  have hl := finish_life k
  obtain ⟨hd, hc⟩ : k.finish.threadToBeDestroyed = some k.currentThread ∧
      k.finish.cpu = .sleeping := by
    unfold finish
    dsimp only
    split
    · exact ⟨rfl, rfl⟩
    · exact ⟨rfl, rfl⟩
  refine ⟨fun x _ hr => ?_, fun t ht => ?_⟩
  · rw [hc] at hr
    cases hr
  · rw [hl] at ht
    by_cases htc : t = k.currentThread
    · rw [hd, htc]
    · rw [Function.update_of_ne htc] at ht
      exact absurd ht (h.life t)

theorem step_reaped {e : Event} (h : k.Reaped) (hg : k.Prompt e) (hs : k.step e = .ok k') :
    k'.Reaped := by
  cases e with
  | fork t =>
    obtain ⟨⟨hc, -⟩, hk⟩ := ite_error_eq_ok.mp hs
    cases hk
    have hsw := h.inCode hc
    refine Swept.reaped ⟨hsw.none, fun u hu => ?_⟩
    simp only [State.fork, State.readyToRun, Function.update_apply] at hu
    split at hu
    · cases hu
    · exact hsw.life u hu
  | start user =>
    obtain ⟨-, hk⟩ := ite_error_eq_ok.mp hs
    obtain ⟨-, ⟨-, rfl⟩ | ⟨rfl, rfl⟩⟩ := start_cases hk
    · exact ⟨fun _ _ _ => .inr (Function.update_self _ _ _), h.kept⟩
    · exact ((h.swept_of_none (hg rfl)).congr (k.setPoint .code) rfl rfl).reaped
  | create =>
    obtain ⟨-, hk⟩ := ite_error_eq_ok.mp hs
    exact (destroyFinished_swept (create_cases hk).2 h.kept).reaped
  | yield =>
    obtain ⟨hc, hk⟩ := ite_error_eq_ok.mp hs
    rcases yield_cases hk with rfl | ⟨next, rest, -, hrun⟩
    · exact h
    · exact run_reaped hrun h.kept
  | p s =>
    obtain ⟨hc, hk⟩ := ite_error_eq_ok.mp hs
    exact (test_swept hk (h.inCode hc)).reaped
  | resume =>
    obtain ⟨hc, hk⟩ := ite_error_eq_ok.mp hs
    rcases resume_cases hk with ⟨s, hp, ht⟩ | ⟨hp, rfl⟩
    · have hsw := h.swept hc (by rw [hp]; simp) (by rw [hp]; simp)
      exact (test_swept ht (hsw.congr _ rfl rfl)).reaped
    · have hsw := h.swept hc (by rw [hp]; simp) (by rw [hp]; simp)
      exact (hsw.congr (k.setPoint .code) rfl rfl).reaped
  | v s =>
    obtain ⟨-, hk⟩ := ite_error_eq_ok.mp hs
    exact v_reaped h hk
  | interrupt s =>
    obtain ⟨-, hk⟩ := ite_error_eq_ok.mp hs
    exact v_reaped h hk
  | join child =>
    obtain ⟨hc, hk⟩ := ite_error_eq_ok.mp hs
    cases hk
    unfold join
    split
    · refine Swept.reaped ?_
      exact (h.inCode hc).congr _ rfl rfl
    · exact h
  | finish =>
    obtain ⟨hc, hk⟩ := ite_error_eq_ok.mp hs
    cases hk
    exact finish_reaped (h.inCode hc)
  | idle =>
    obtain ⟨-, hk⟩ := ite_error_eq_ok.mp hs
    cases hk
    refine ⟨fun _ _ hr => ?_, h.kept⟩
    cases hr
  | dispatch =>
    obtain ⟨-, hk⟩ := ite_error_eq_ok.mp hs
    obtain ⟨next, rest, -, hrun⟩ := dispatch_cases hk
    exact run_reaped hrun h.kept

/-! ## Nobody deletes the thread that runs -/

theorem destroyFinished_error {e : Fault} (h : k.destroyFinished = .error e) :
    k.threadToBeDestroyed = some k.currentThread := by
  unfold destroyFinished at h
  split at h
  · cases h
  · rename_i x hx
    split at h
    · rename_i heq
      rw [hx, heq]
    · cases h

theorem Inv.dead (hi : k.Inv) (hx : k.threadToBeDestroyed = some x) : k.life x = .finished := by
  obtain ⟨place, hp, -⟩ := hi
  exact hp.dead x hx

theorem Inv.ready_alive (hi : k.Inv) (ht : t ∈ k.readyList) : k.life t = .alive := by
  obtain ⟨place, hp, -⟩ := hi
  rw [hp.alive, hp.ready.mem_iff.mp ht]
  simp

/-- What the dispatcher takes off the ready list is not the finished thread. -/
theorem run_ready {k₁ : State} {next : ThreadPtr} {e : Fault} (h : k₁.run next = .error e)
    (hi : k.Inv) (hd : k₁.threadToBeDestroyed = k.threadToBeDestroyed) (hn : next ∈ k.readyList) :
    False := by
  unfold run at h
  dsimp only at h
  split at h
  · cases h
  · have hx := destroyFinished_error h
    have hdead := hi.dead (hd.symm.trans hx)
    rw [hi.ready_alive hn] at hdead
    cases hdead

theorem test_error {e : Fault} (h : k.test s = .error e) : e = .undefined := by
  unfold test at h
  split at h
  · cases h
  · unfold cInt at h
    split at h
    · cases h
    · cases h
      rfl

theorem v_error {e : Fault} (h : k.v s = .error e) : e = .undefined := by
  unfold v cInt at h
  split at h
  · dsimp only at h
    rw [ok_bind] at h
    split at h
    · cases h
    · cases h
  · cases h
    rfl

theorem step_deletes_others {e : Event} (hi : k.Inv) :
    k.step e ≠ .error (.assertion .deleteCurrent) := by
  intro h
  cases e with
  | start user =>
    simp only [step] at h
    split at h
    · unfold start at h
      split at h <;> cases h
    · cases h
  | create =>
    simp only [step] at h
    split at h
    · rename_i hc
      unfold create at h
      split at h
      · have hx := destroyFinished_error h
        have hdead := hi.dead hx
        rw [show (k.setPoint .code).currentThread = k.currentThread from rfl,
          hi.current_alive hc] at hdead
        cases hdead
      · cases h
    · cases h
  | yield =>
    simp only [step] at h
    split at h
    · unfold yield at h
      split at h
      · cases h
      · rename_i next rest hl
        exact run_ready h hi rfl (by rw [hl]; exact List.mem_cons_self)
    · cases h
  | dispatch =>
    simp only [step] at h
    split at h
    · unfold dispatch at h
      split at h
      · cases h
      · rename_i next rest hl
        exact run_ready h hi rfl (by rw [hl]; exact List.mem_cons_self)
    · cases h
  | p s =>
    simp only [step] at h
    split at h
    · cases test_error h
    · cases h
  | resume =>
    simp only [step] at h
    split at h
    · unfold resume at h
      split at h
      · cases test_error h
      · cases h
      · cases h
    · cases h
  | v s =>
    simp only [step] at h
    split at h
    · cases v_error h
    · cases h
  | interrupt s =>
    simp only [step] at h
    split at h
    · cases v_error h
    · cases h
  | fork t => simp only [step] at h; split at h <;> cases h
  | join child => simp only [step] at h; split at h <;> cases h
  | finish => simp only [step] at h; split at h <;> cases h
  | idle => simp only [step] at h; split at h <;> cases h

/-! ## Every finished thread is destroyed once -/

theorem init_reaped (value : SemPtr → Int) : (init value).Reaped := by
  refine Swept.reaped ⟨rfl, fun t ht => ?_⟩
  simp only [init, Function.update_apply] at ht
  split at ht <;> cases ht

/-- The step from `k` to `k'` deletes `x`. -/
def Deletes (k k' : State) (x : ThreadPtr) : Prop :=
  k.life x ≠ .destroyed ∧ k'.life x = .destroyed

theorem not_deletes (h : k'.life = k.life) : ¬ Deletes k k' x := by
  intro ⟨hx, hx'⟩
  rw [h] at hx'
  exact hx hx'

theorem destroyFinished_deletes {k₁ : State} (hd : k₁.destroyFinished = .ok k')
    (hl : k₁.life = k.life) (ht : k₁.threadToBeDestroyed = k.threadToBeDestroyed)
    (hx : Deletes k k' x) : k.threadToBeDestroyed = some x ∧ x ≠ k'.currentThread := by
  rcases destroyFinished_cases hd with ⟨-, rfl⟩ | ⟨y, hy, hne, rfl⟩
  · exact absurd hx (not_deletes hl)
  · obtain ⟨hx, hx'⟩ := hx
    by_cases hxy : x = y
    · rw [hxy, ← ht]
      exact ⟨hy, hne⟩
    · dsimp only at hx'
      rw [Function.update_of_ne hxy, hl] at hx'
      exact absurd hx' hx

theorem run_deletes {k₁ : State} {next : ThreadPtr} (hr : k₁.run next = .ok k')
    (hl : k₁.life = k.life) (ht : k₁.threadToBeDestroyed = k.threadToBeDestroyed)
    (hx : Deletes k k' x) : k.threadToBeDestroyed = some x ∧ x ≠ k'.currentThread := by
  rcases run_cases hr with ⟨-, rfl⟩ | ⟨-, hd⟩
  · exact absurd hx (not_deletes hl)
  · exact destroyFinished_deletes hd hl ht hx

theorem not_deletes_update {l : Life} (h : k'.life = Function.update k.life t l)
    (hne : l ≠ .destroyed) : ¬ Deletes k k' x := by
  intro ⟨hx, hx'⟩
  rw [h, Function.update_apply] at hx'
  split at hx'
  · exact hne hx'
  · exact hx hx'

/-- What a step deletes is the thread that was waiting for it, and is not the one
that runs. -/
theorem step_deletes {e : Event} (hs : k.step e = .ok k') (hx : Deletes k k' x) :
    k.threadToBeDestroyed = some x ∧ x ≠ k'.currentThread := by
  cases e with
  | start user =>
    obtain ⟨-, hk⟩ := ite_error_eq_ok.mp hs
    obtain ⟨-, ⟨-, rfl⟩ | ⟨-, rfl⟩⟩ := start_cases hk
    · exact absurd hx (not_deletes rfl)
    · exact absurd hx (not_deletes rfl)
  | create =>
    obtain ⟨-, hk⟩ := ite_error_eq_ok.mp hs
    exact destroyFinished_deletes (create_cases hk).2 rfl rfl hx
  | yield =>
    obtain ⟨-, hk⟩ := ite_error_eq_ok.mp hs
    rcases yield_cases hk with rfl | ⟨next, rest, -, hrun⟩
    · exact absurd hx (not_deletes rfl)
    · exact run_deletes hrun rfl rfl hx
  | dispatch =>
    obtain ⟨-, hk⟩ := ite_error_eq_ok.mp hs
    obtain ⟨next, rest, -, hrun⟩ := dispatch_cases hk
    exact run_deletes hrun rfl rfl hx
  | fork t =>
    obtain ⟨-, hk⟩ := ite_error_eq_ok.mp hs
    cases hk
    exact absurd hx (not_deletes_update (l := .alive) rfl (by simp))
  | p s =>
    obtain ⟨-, hk⟩ := ite_error_eq_ok.mp hs
    exact absurd hx (not_deletes (test_life hk))
  | resume =>
    obtain ⟨-, hk⟩ := ite_error_eq_ok.mp hs
    rcases resume_cases hk with ⟨s, -, ht⟩ | ⟨-, rfl⟩
    · have hlife := test_life ht
      exact absurd hx (not_deletes hlife)
    · exact absurd hx (not_deletes rfl)
  | v s =>
    obtain ⟨-, hk⟩ := ite_error_eq_ok.mp hs
    exact absurd hx (not_deletes (v_life hk))
  | interrupt s =>
    obtain ⟨-, hk⟩ := ite_error_eq_ok.mp hs
    exact absurd hx (not_deletes (v_life hk))
  | join child =>
    obtain ⟨-, hk⟩ := ite_error_eq_ok.mp hs
    cases hk
    refine absurd hx (not_deletes ?_)
    unfold join
    split <;> rfl
  | finish =>
    obtain ⟨-, hk⟩ := ite_error_eq_ok.mp hs
    cases hk
    exact absurd hx (not_deletes_update (finish_life k) (by simp))
  | idle =>
    obtain ⟨-, hk⟩ := ite_error_eq_ok.mp hs
    cases hk
    exact absurd hx (not_deletes rfl)

end State

/-- Along a run in which every thread that starts while a finished one is waiting
destroys it, every state has these properties: the thread that is waiting to be
destroyed is the only finished one that has not been; `Finish` finds nobody
waiting; whenever a thread is past its start, all that have finished before are
destroyed; and a step deletes a thread only if it is waiting for that and is not
the one that runs. -/
theorem finished_destroyed_once {value : SemPtr → Int} {es : List Event} {k : State}
    (hr : Run State.step (init value) es k) (hg : Guarded State.step State.Prompt (init value) es) :
    (∀ x, k.life x = .finished ↔ k.threadToBeDestroyed = some x) ∧
      (∀ k', k.step .finish = .ok k' → k.threadToBeDestroyed = none) ∧
      (k.InCode → ∀ x, k.life x ≠ .finished) ∧
      (∀ e, k.step e ≠ .error (.assertion .deleteCurrent)) ∧
      ∀ e k' x, k.step e = .ok k' → State.Deletes k k' x →
        k.threadToBeDestroyed = some x ∧ x ≠ k'.currentThread := by
  have hi : k.Inv := hr.inv (fun _ _ _ => State.step_inv) (State.init_inv value)
  have hreap : k.Reaped :=
    hr.guarded_inv (fun _ _ _ => State.step_reaped) hg (State.init_reaped value)
  refine ⟨fun x => ⟨hreap.kept x, hi.dead⟩, fun k' hk' => ?_, fun hc => (hreap.inCode hc).life,
    fun e => State.step_deletes_others hi, fun e k' x => State.step_deletes⟩
  obtain ⟨hc, -⟩ := ite_error_eq_ok.mp hk'
  exact (hreap.inCode hc).none

/-- Three user processes. The first one finishes; the second loses the CPU before
it looks at `threadToBeDestroyed`, and the third destroys the first. -/
def userThreads : List Event :=
  [.fork 1, .fork 2, .fork 3, .p 0, .dispatch, .start true, .create, .finish, .dispatch,
    .start true, .yield, .start true, .create]

theorem finished_destroyed_once_user :
    ∃ k, Run State.step (init fun _ => 0) userThreads k ∧ k.life 1 = .destroyed ∧
      ∀ x, k.life x ≠ .finished := by
  have hrun : continues State.step (init fun _ => 0) userThreads
      (fun k => decide (k.life 1 = .destroyed ∧ k.InCode)) = true := by decide
  obtain ⟨k, hr, hk⟩ := continues_iff.mp hrun
  obtain ⟨hlife, hc⟩ := of_decide_eq_true hk
  have hg : Guarded State.step State.Prompt (init fun _ => 0) userThreads := by
    refine Guarded.of_events fun e he k hstart => ?_
    subst hstart
    simp [userThreads] at he
  exact ⟨k, hr, hlife, (finished_destroyed_once hr hg).2.2.1 hc⟩

/-- Two threads of the kernel: the second one starts and finishes before anybody
has destroyed the first. -/
theorem finished_thread_forgotten :
    ∃ k k', Run State.step (init fun _ => 0)
        [.fork 1, .fork 2, .yield, .start false, .finish, .dispatch, .start false] k ∧
      k.threadToBeDestroyed = some 1 ∧ k.step .finish = .ok k' ∧
      k'.threadToBeDestroyed = some 2 ∧ k'.life 1 = .finished := by
  have hrun : continues State.step (init fun _ => 0)
      [.fork 1, .fork 2, .yield, .start false, .finish, .dispatch, .start false]
      (fun k => decide (k.InCode ∧ k.threadToBeDestroyed = some 1 ∧
        k.finish.threadToBeDestroyed = some 2 ∧ k.finish.life 1 = .finished)) = true := by decide
  obtain ⟨k, hr, hk⟩ := continues_iff.mp hrun
  obtain ⟨hc, hd, hd', hl⟩ := of_decide_eq_true hk
  exact ⟨k, k.finish, hr, hd, if_pos hc, hd', hl⟩

end Nachos.Synch

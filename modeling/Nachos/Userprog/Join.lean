import Nachos.Userprog.Effects

/-! Join. Two properties of whole runs follow from what a step can do to the
live threads: a joiner does not run before the thread it waits for has finished,
and no joiner is forgotten as long as every join names another thread that
nobody waits for yet. -/

namespace Nachos
open Lib
namespace Kernel

variable {k k' : Kernel} {e : Event}

/-! ## No early return -/

/-- Thread `t` is joined, and only `c` can wake it. -/
def Waits (k : Kernel) (t c : ThreadPtr) : Prop :=
  ∃ T, k.live t = some T ∧ T.isJoined = true ∧
    ∀ {x X}, k.live x = some X → X.parent = some t → x = c

theorem Inv.not_current_of_joined (hi : k.Inv) {t : ThreadPtr} {T : Thread}
    (hT : k.live t = some T) (hj : T.isJoined = true) : t ≠ k.currentThread := by
  rintro rfl
  obtain ⟨T', hT', hj'⟩ := hi.running
  rw [hT] at hT'
  cases hT'
  rw [hj] at hj'
  cases hj'

theorem Waits.step {t c : ThreadPtr} (hi : k.Inv) (hw : k.Waits t c)
    (hne : ¬ (e.Finishes ∧ k.currentThread = c)) (h : k.step e = .ok k') : k'.Waits t c := by
  obtain ⟨T, hT, hTj, honly⟩ := hw
  have htc := hi.not_current_of_joined hT hTj
  cases step_procStep hi h with
  | same hl => exact ⟨T, by rw [hl]; exact hT, hTj, by rw [hl]; exact honly⟩
  | spawn hl =>
    refine ⟨T, by rw [hl, if_neg (hi.procs.live_ne hT)]; exact hT, hTj, fun {x X} hx hp => ?_⟩
    rw [hl] at hx
    split at hx
    · cases hx; cases hp
    · exact honly hx hp
  | @join c' _ ht hl =>
    refine ⟨_, by rw [hl, hT]; rfl, by simp [joinEffect, hTj], fun {x X} hx hp => ?_⟩
    rw [hl] at hx
    obtain ⟨Y, hY, rfl⟩ := Option.map_eq_some_iff.mp hx
    by_cases hxc : x = c'
    · simp only [joinEffect, hxc, if_true, Option.some.injEq] at hp
      exact absurd hp.symm htc
    · simp only [joinEffect, if_neg hxc] at hp
      exact honly hY hp
  | @finish _ C _ he hr hl =>
    -- the finishing thread is not `c`, so it does not wake `t`
    have hwake : C.parent ≠ some t := fun hp => hne ⟨he, honly hr hp⟩
    refine ⟨T, by rw [hl, if_neg htc, hT, Option.map_some, wakeEffect, if_neg hwake], hTj,
      fun {x X} hx hp => ?_⟩
    rw [hl] at hx
    split at hx
    · cases hx
    · obtain ⟨Y, hY, rfl⟩ := Option.map_eq_some_iff.mp hx
      refine honly hY ?_
      unfold wakeEffect at hp
      split at hp <;> exact hp

/-- A thread that went to sleep in `SC_Join` on the thread `c` does not run
again before `c` has executed `Thread::Finish`. -/
theorem join_returns_after_finish {k k1 k2 km : Kernel} {c : ThreadPtr} {es : List Event}
    (hk : Reachable k) (hc : c ∈ k.activeThreads)
    (hid : k.hasID (k.registers 4).toInt c = true)
    (hsleep : k.act .join = .ok (km, .sleep)) (hjoin : k.step .join = .ok k1)
    (hrun : Run step k1 es k2) (hagain : k2.currentThread = k.currentThread) :
    ∃ es₁ e es₂ m, es = es₁ ++ e :: es₂ ∧ Run step k1 es₁ m ∧ e.Finishes ∧
      m.currentThread = c := by
  have hi := hk.inv
  obtain ⟨hcall, hact⟩ := ite_error_eq_ok.mp hsleep
  have ha : k.AtHome := hi.atHome_of_atUser (.inr hcall)
  obtain ⟨T, hT, hTj⟩ := hi.running
  have hwaits : k1.Waits k.currentThread c := by
    cases step_procStep hi hjoin with
    | same hl hidle =>
      rcases join_target (hi.toUser ha) ⟨ha.dying, ha.table⟩ (Except.ok.inj hact) with
        ⟨-, -, hn⟩ | ⟨c', hsome, -⟩
      · cases hn
      · have hnone : (k.goTo .user).joinTarget = none := hidle rfl
        rw [hnone] at hsome
        cases hsome
    | @join c' _ ht hl =>
      have hcc : c' = c := by
        unfold joinTarget at ht
        split at ht
        · have hfind := (hi.procs.find_hasID_iff _ c).mpr ⟨hc, hid⟩
          exact Option.some.inj (ht.symm.trans hfind)
        · cases ht
      subst hcc
      refine ⟨_, by rw [hl, hT]; rfl, by simp [joinEffect], fun {x X} hx hp => ?_⟩
      rw [hl] at hx
      obtain ⟨Y, hY, rfl⟩ := Option.map_eq_some_iff.mp hx
      by_contra hxc
      simp only [joinEffect, if_neg hxc] at hp
      obtain ⟨P, hP, hPj⟩ := hi.procs.parent hY hp
      exact hi.not_current_of_joined hP hPj rfl
    | finish he => exact absurd he id
  have hinv : k1.Inv ∧ k1.Waits k.currentThread c := ⟨step_inv hi hjoin, hwaits⟩
  rcases hrun.until (I := fun m => m.Inv ∧ m.Waits k.currentThread c)
      (Q := fun m e => e.Finishes ∧ m.currentThread = c)
      (fun s e s' h hQ hs => ⟨step_inv h.1 hs, h.2.step h.1 hQ hs⟩) hinv with
    ⟨hi2, T', hT', hj', -⟩ | ⟨es₁, e, es₂, m, he, hr, hQ⟩
  · exact absurd hagain.symm (hi2.not_current_of_joined hT' hj')
  · exact ⟨es₁, e, es₂, m, he, hr, hQ⟩

/-- Process 0 starts process 1 and joins it; process 1 runs and exits, and only
then process 0 runs again. -/
theorem join_returns_after_finish_sample : ∃ (k k1 k2 km : Kernel) (es : List Event),
    Reachable k ∧ 1 ∈ k.activeThreads ∧ k.act .join = .ok (km, .sleep) ∧
    k.step .join = .ok k1 ∧ Run step k1 es k2 ∧ k2.currentThread = k.currentThread ∧
    ∃ es₁ e es₂ m, es = es₁ ++ e :: es₂ ∧ Run step k1 es₁ m ∧ e.Finishes ∧
      m.currentThread = 1 := by
  have hdemo : (Config.sample 1).reaches (execSample ++ (joinSample 1).dropLast) (fun k =>
      decide (1 ∈ k.activeThreads) && k.hasID (k.registers 4).toInt 1 &&
      decide ((k.act .join).toOption.map Prod.snd = some .sleep) &&
      continues step k [.join] fun k1 =>
        continues step k1 [.enable false, .create, .trap, .exit] fun k2 =>
          k2.currentThread = k.currentThread) = true := by
    decide +kernel
  obtain ⟨k0, k, hboot, hrun, hp⟩ := Config.reaches_iff.mp hdemo
  simp only [Bool.and_eq_true, decide_eq_true_eq] at hp
  obtain ⟨⟨⟨hmem, hid⟩, hsleep⟩, hcont⟩ := hp
  obtain ⟨k1, hjoin, hcont⟩ := continues_iff.mp hcont
  obtain ⟨k2, hrun2, hagain⟩ := continues_iff.mp hcont
  have hstep : k.step .join = .ok k1 := by
    cases hjoin with
    | cons hs hr => cases hr; exact hs
  obtain ⟨⟨km, n⟩, hact, hn⟩ : ∃ r, k.act .join = .ok r ∧ r.2 = .sleep := by
    cases hact : k.act .join with
    | error e => rw [hact] at hsleep; cases hsleep
    | ok r =>
      rw [hact] at hsleep
      exact ⟨r, rfl, Option.some.inj hsleep⟩
  dsimp only at hn
  subst hn
  have hk : Reachable k := ⟨_, _, k0, hboot, hrun⟩
  have hagain : k2.currentThread = k.currentThread := by simpa using hagain
  exact ⟨k, k1, k2, km, _, hk, hmem, hact, hstep, hrun2, hagain,
    join_returns_after_finish hk hmem hid hact hstep hrun2 hagain⟩

/-! ## No forgotten joiner -/

/-- Thread `t` is asleep in `SC_Join`: joined, and on no queue. -/
def Asleep (k : Kernel) (t : ThreadPtr) : Prop :=
  (∃ T, k.live t = some T ∧ T.isJoined = true) ∧ k.waiting t = 0

/-- Every thread asleep in `SC_Join` is the parent of another unfinished thread. -/
def JoinersKept (k : Kernel) : Prop :=
  ∀ t, k.Asleep t → ∃ c C, c ≠ t ∧ k.live c = some C ∧ C.parent = some t

/-- A join that puts its caller to sleep names another thread, which nobody
waits for yet. -/
def FreshJoin (k : Kernel) (e : Event) : Prop :=
  e = .join → ∀ c, k.joinTarget = some c →
    c ≠ k.currentThread ∧ ∀ C, k.live c = some C → C.parent = none

theorem Inv.asleep_iff (hi : k.Inv) {t : ThreadPtr} :
    k.Asleep t ↔ ∃ T, k.live t = some T ∧ T.isJoined = true := by
  refine ⟨fun h => h.1, fun h => ⟨h, ?_⟩⟩
  obtain ⟨T, hT, hj⟩ := h
  have := hi.seated t
  simp only [hT, seats, hj, if_true] at this
  omega

theorem JoinersKept.step (hi : k.Inv) (hP : k.JoinersKept) (hG : k.FreshJoin e)
    (h : k.step e = .ok k') : k'.JoinersKept := by
  intro t ht
  obtain ⟨T', hT', hj'⟩ := (step_inv hi h).asleep_iff.mp ht
  cases step_procStep hi h with
  | same hl =>
    rw [hl] at hT' ⊢
    exact hP t (hi.asleep_iff.mpr ⟨T', hT', hj'⟩)
  | spawn hl =>
    rw [hl] at hT'
    split at hT'
    · cases hT'; cases hj'
    · obtain ⟨c, C, hne, hC, hp⟩ := hP t (hi.asleep_iff.mpr ⟨T', hT', hj'⟩)
      exact ⟨c, C, hne, by rw [hl, if_neg (hi.procs.live_ne hC)]; exact hC, hp⟩
  | @join c _ htarget hl =>
    obtain ⟨hself, hfree⟩ := hG rfl c htarget
    rw [hl] at hT'
    obtain ⟨T, hT, rfl⟩ := Option.map_eq_some_iff.mp hT'
    by_cases hcur : t = k.currentThread
    · -- the caller: its target points back to it
      obtain ⟨C, hC⟩ : ∃ C, k.live c = some C := by
        unfold joinTarget at htarget
        split at htarget
        · have hmem := List.mem_of_find?_eq_some htarget
          exact Option.isSome_iff_exists.mp (hi.procs.active c (by simpa using hmem))
        · cases htarget
      exact ⟨c, _, hcur ▸ hself, by rw [hl, hC]; rfl, by simp [joinEffect, hcur]⟩
    · simp only [joinEffect, if_neg hcur] at hj'
      obtain ⟨c', C, hne, hC, hp⟩ := hP t (hi.asleep_iff.mpr ⟨T, hT, hj'⟩)
      have hcc : c' ≠ c := by
        rintro rfl
        rw [hfree C hC] at hp
        cases hp
      exact ⟨c', _, hne, by rw [hl, hC]; rfl, by simp [joinEffect, hcc, hp]⟩
  | @finish _ R _ he hr hl =>
    rw [hl] at hT'
    split at hT'
    · cases hT'
    · obtain ⟨T, hT, rfl⟩ := Option.map_eq_some_iff.mp hT'
      -- a thread that is still joined is not the one that was woken
      have hwake : R.parent ≠ some t := by
        intro hp
        simp [wakeEffect, hp] at hj'
      simp only [wakeEffect, if_neg hwake] at hj'
      obtain ⟨c, C, hne, hC, hp⟩ := hP t (hi.asleep_iff.mpr ⟨T, hT, hj'⟩)
      have hcur : c ≠ k.currentThread := by
        rintro rfl
        rw [hr] at hC
        cases hC
        exact hwake hp
      refine ⟨c, _, hne, by rw [hl, if_neg hcur, hC]; rfl, ?_⟩
      unfold wakeEffect
      split <;> exact hp

/-- Any other join leaves a joiner behind that nobody will wake: the caller
itself, or the thread that was waiting for the target. -/
theorem FreshJoin.needed (hi : k.Inv) (h : k.step e = .ok k') (hG : ¬ k.FreshJoin e) :
    ¬ k'.JoinersKept := by
  intro hP
  unfold FreshJoin at hG
  push Not at hG
  obtain ⟨rfl, c, htarget, hbad⟩ := hG
  obtain ⟨T, hT, hTj⟩ := hi.running
  cases step_procStep hi h with
  | same _ hidle => rw [hidle rfl] at htarget; cases htarget
  | finish he => exact he
  | @join c' _ htarget' hl =>
    rw [htarget] at htarget'
    cases htarget'
    -- who points to a thread other than the caller did so before
    have hback {x p : ThreadPtr} {X : Thread} (hX : k'.live x = some X) (hp : X.parent = some p)
        (hx : x ≠ c) : ∃ Y, k.live x = some Y ∧ Y.parent = some p := by
      rw [hl] at hX
      obtain ⟨Y, hY, rfl⟩ := Option.map_eq_some_iff.mp hX
      simp only [joinEffect, if_neg hx] at hp
      exact ⟨Y, hY, hp⟩
    have hi' := step_inv hi h
    by_cases hself : c = k.currentThread
    · have hcur : k'.Asleep c :=
        hi'.asleep_iff.mpr ⟨_, by rw [hl, hself, hT]; rfl, by simp [joinEffect]⟩
      obtain ⟨x, X, hne, hX, hp⟩ := hP c hcur
      obtain ⟨Y, hY, hYp⟩ := hback hX hp hne
      obtain ⟨P, hPl, hPj⟩ := hi.procs.parent hY hYp
      exact hi.not_current_of_joined hPl hPj hself
    · obtain ⟨C, hC, hpar⟩ := hbad hself
      obtain ⟨p, hp⟩ := Option.ne_none_iff_exists'.mp hpar
      obtain ⟨P, hPl, hPj⟩ := hi.procs.parent hC hp
      have hpcur := hi.not_current_of_joined hPl hPj
      have hasleep : k'.Asleep p := hi'.asleep_iff.mpr
        ⟨_, by rw [hl, hPl]; rfl, by simp [joinEffect, hPj]⟩
      obtain ⟨x, X, hne, hX, hXp⟩ := hP p hasleep
      by_cases hxc : x = c
      · subst hxc
        rw [hl, hC] at hX
        cases hX
        simp only [joinEffect, if_true, Option.some.injEq] at hXp
        exact hpcur hXp.symm
      · obtain ⟨Y, hY, hYp⟩ := hback hX hXp hxc
        exact hxc (hi.procs.onlyChild hY hC hYp hp)

theorem boot_joinersKept {c : Config} (h : boot c = .ok k) : k.JoinersKept := by
  intro t ht
  obtain ⟨⟨T, hT, hj⟩, -⟩ := ht
  obtain ⟨x, numPages, -, -, rfl⟩ := boot_eq_ok h
  change Function.update (fun _ => none) 0 _ t = some T at hT
  rw [Function.update_apply] at hT
  split at hT
  · cases hT; cases hj
  · cases hT

/-- Along a run from boot no joiner is ever forgotten if and only if every join
that puts its caller to sleep names another thread that nobody waits for. -/
theorem joiners_kept_iff {c : Config} {k0 : Kernel} {es : List Event} (hboot : boot c = .ok k0)
    (hrun : Run step k0 es k) : Always step JoinersKept k0 es ↔ Guarded step FreshJoin k0 es := by
  constructor
  · exact fun h => h.guarded (fun s e s' hi _ hs => step_inv hi hs)
      (fun s e s' hi _ hs hG => FreshJoin.needed hi hs hG) hrun (boot_inv hboot)
  · intro h
    refine Always.mono (h.always (I := fun s => s.Inv ∧ s.JoinersKept) ?_
      ⟨boot_inv hboot, boot_joinersKept hboot⟩) fun s hs => hs.2
    exact fun s e s' hs hG hstep => ⟨step_inv hs.1 hstep, hs.2.step hs.1 hG hstep⟩

/-- The first process starts another one and joins it. -/
def joinedSample : List Event := execSample ++ joinSample 1 ++ [.enable false, .create]

theorem joiners_kept_sample : ∃ k0 k : Kernel, boot (Config.sample 1) = .ok k0 ∧
    Run step k0 joinedSample k ∧ k.Asleep 0 ∧ Always step JoinersKept k0 joinedSample := by
  have hdemo : (Config.sample 1).boots (fun k0 =>
      guards step (fun k e => match e with
        | .join => decide (k.joinTarget = some 1 ∧ k.currentThread = 0 ∧
            (k.live 1).bind Thread.parent = none)
        | _ => true) k0 joinedSample &&
      continues step k0 joinedSample fun k =>
        decide ((k.live 0).map Thread.isJoined = some true)) = true := by decide +kernel
  obtain ⟨k0, hboot, hp⟩ := Config.boots_iff.mp hdemo
  obtain ⟨hguards, hcont⟩ := Bool.and_eq_true_iff.mp hp
  obtain ⟨k, hrun, hjoined⟩ := continues_iff.mp hcont
  have hfresh : Guarded step FreshJoin k0 joinedSample := by
    refine Guarded.mono (guarded_of_guards hguards) fun k e hg => ?_
    rintro rfl c hc
    obtain ⟨htarget, hcur, hparent⟩ := of_decide_eq_true hg
    cases hc.symm.trans htarget
    refine ⟨by rw [hcur]; exact Nat.one_ne_zero, fun C hC => ?_⟩
    rw [hC] at hparent
    exact hparent
  obtain ⟨T, hT, hj⟩ := Option.map_eq_some_iff.mp (of_decide_eq_true hjoined)
  have hi : k.Inv := Reachable.inv ⟨_, _, k0, hboot, hrun⟩
  exact ⟨k0, k, hboot, hrun, hi.asleep_iff.mpr ⟨T, hT, hj⟩,
    (joiners_kept_iff hboot hrun).mpr hfresh⟩

/-- Processes 0 and 1 both join process 2: the second join overwrites the first,
and process 0 sleeps with nobody to wake it. -/
theorem joiner_forgotten : ∃ (k0 k : Kernel) (es : List Event),
    boot (Config.sample 1) = .ok k0 ∧ Run step k0 es k ∧ ¬ k.JoinersKept := by
  have hdemo : (Config.sample 1).reaches (execSample ++ execSample ++ joinSample 2 ++
      [.enable false, .create] ++ joinSample 2) (fun k =>
      decide ((k.live 0).map Thread.isJoined = some true) && decide (k.nextThread = 3) &&
      decide ((k.live 1).bind Thread.parent = none) &&
      decide ((k.live 2).bind Thread.parent = some 1)) = true := by
    decide +kernel
  obtain ⟨k0, k, hboot, hrun, hp⟩ := Config.reaches_iff.mp hdemo
  simp only [Bool.and_eq_true, decide_eq_true_eq] at hp
  obtain ⟨⟨⟨h0, hnext⟩, h1⟩, h2⟩ := hp
  have hi : k.Inv := Reachable.inv ⟨_, _, k0, hboot, hrun⟩
  refine ⟨k0, k, _, hboot, hrun, fun hkept => ?_⟩
  obtain ⟨T, hT, hj⟩ := Option.map_eq_some_iff.mp h0
  obtain ⟨c, C, hne, hC, hpar⟩ := hkept 0 (hi.asleep_iff.mpr ⟨T, hT, hj⟩)
  have hlt : c < 3 := by
    by_contra hge
    have hnone : k.thread c = none := hi.procs.fresh c (by rw [hnext]; exact Nat.not_lt.mp hge)
    unfold live at hC
    rw [hnone] at hC
    split at hC <;> cases hC
  have hsmall (n : Nat) (h0 : n ≠ 0) (h3 : n < 3) : n = 1 ∨ n = 2 := by omega
  rcases hsmall c hne hlt with rfl | rfl
  · rw [hC] at h1
    rw [show (some C).bind Thread.parent = C.parent from rfl, hpar] at h1
    cases h1
  · rw [hC] at h2
    rw [show (some C).bind Thread.parent = C.parent from rfl, hpar] at h2
    cases h2

end Kernel
end Nachos

import Nachos.Lib.Places
import Nachos.Lib.Run
import Nachos.Threads.Synch

/-! Each thread is in one place. `Placed` relates a state to a map that gives
every thread its place: the ready list, one semaphore's queue, a `SC_Join` that
sleeps, or the hands of the code, which is where the running thread is. Each
operation of the scheduler moves one thread, and each event of the machine is a
few such moves. -/

namespace Nachos.Synch
open Lib

inductive Place
  | nowhere
  | held
  | ready
  | queue (s : SemPtr)
  | joined
  deriving DecidableEq, Repr

namespace State

/-- What a thread's status and stack are at its place. -/
def Fits (k : State) (t : ThreadPtr) : Place → Prop
  | .nowhere | .held => True
  | .ready => k.status t = .ready
  | .queue s => k.status t = .blocked ∧ k.point t = .inP s
  | .joined => k.status t = .blocked ∧ k.point t = .inJoin

structure Placed (k : State) (place : ThreadPtr → Place) : Prop where
  ready : Lists place .ready k.readyList
  queue : ∀ s, Lists place (.queue s) (k.semaphore s).queue
  joined : ∀ t, k.isJoined t = true ↔ place t = .joined
  alive : ∀ t, k.life t = .alive ↔ place t ≠ .nowhere
  fits : ∀ t, k.Fits t (place t)
  parent : ∀ c p, place c ≠ .nowhere → k.parent c = some p → place p = .joined
  single : ∀ c c' p, place c ≠ .nowhere → place c' ≠ .nowhere → k.parent c = some p →
    k.parent c' = some p → c = c'
  dead : ∀ x, k.threadToBeDestroyed = some x → k.life x = .finished

variable {k : State} {place : ThreadPtr → Place} {t : ThreadPtr}

/-! ## Moves -/

/-- A change of what the places do not depend on. -/
theorem Placed.congr {k' : State} (h : k.Placed place) (hr : k'.readyList = k.readyList)
    (hq : ∀ s, (k'.semaphore s).queue = (k.semaphore s).queue) (hj : k'.isJoined = k.isJoined)
    (hl : k'.life = k.life) (hp : k'.parent = k.parent)
    (hd : k'.threadToBeDestroyed = k.threadToBeDestroyed)
    (hf : ∀ t, k.Fits t (place t) → k'.Fits t (place t)) : k'.Placed place where
  ready := hr ▸ h.ready
  queue s := by rw [hq]; exact h.queue s
  joined t := by rw [hj]; exact h.joined t
  alive t := by rw [hl]; exact h.alive t
  fits t := hf t (h.fits t)
  parent c p hc hcp := h.parent c p hc (by rw [← hp]; exact hcp)
  single c c' p hc hc' hcp hcp' := h.single c c' p hc hc' (by rw [← hp]; exact hcp)
    (by rw [← hp]; exact hcp')
  dead x hx := by rw [hl]; exact h.dead x (hd ▸ hx)

/-- A thread moves from one place to another, neither of them a join. -/
theorem Placed.move {k' : State} {q : Place} (h : k.Placed place) (hfrom : place t ≠ .joined)
    (halive : place t ≠ .nowhere) (hto : q ≠ .joined) (hq : q ≠ .nowhere)
    (hready : Lists (Function.update place t q) .ready k'.readyList)
    (hqueue : ∀ s, Lists (Function.update place t q) (.queue s) (k'.semaphore s).queue)
    (hj : k'.isJoined = k.isJoined) (hl : k'.life = k.life) (hp : k'.parent = k.parent)
    (hd : k'.threadToBeDestroyed = k.threadToBeDestroyed)
    (hfit : k'.Fits t q) (hfits : ∀ u, u ≠ t → k.Fits u (place u) → k'.Fits u (place u)) :
    k'.Placed (Function.update place t q) := by
  have hnowhere (u : ThreadPtr) : Function.update place t q u ≠ .nowhere ↔ place u ≠ .nowhere := by
    rw [Function.update_apply]
    split
    · rename_i hu; rw [hu]; exact iff_of_true hq halive
    · rfl
  refine ⟨hready, hqueue, fun u => ?_, fun u => ?_, fun u => ?_, fun c p hc hcp => ?_,
    fun c c' p hc hc' hcp hcp' => ?_, fun x hx => ?_⟩
  · rw [hj, h.joined, Function.update_apply]
    split
    · rename_i hu; rw [hu]; exact iff_of_false hfrom hto
    · rfl
  · rw [hl, h.alive, hnowhere]
  · by_cases hu : u = t
    · rw [hu, Function.update_self]; exact hfit
    · rw [Function.update_of_ne hu]; exact hfits u hu (h.fits u)
  · have hjoined := h.parent c p ((hnowhere c).mp hc) (hp ▸ hcp)
    have hne : p ≠ t := by rintro rfl; exact hfrom hjoined
    rw [Function.update_of_ne hne]
    exact hjoined
  · exact h.single c c' p ((hnowhere c).mp hc) ((hnowhere c').mp hc') (hp ▸ hcp) (hp ▸ hcp')
  · rw [hl]; exact h.dead x (hd ▸ hx)

theorem Placed.popReady {rest : List ThreadPtr} (h : k.Placed place)
    (hl : k.readyList = t :: rest) :
    { k with readyList := rest }.Placed (Function.update place t .held) := by
  have hr := h.ready
  rw [hl] at hr
  have hplace : place t = .ready := hr.mem_iff.mp List.mem_cons_self
  refine h.move (by simp [hplace]) (by simp [hplace]) (by simp) (by simp) (hr.remove (by simp))
    (fun s => (h.queue s).move (by simp [hplace]) (by simp)) rfl rfl rfl rfl trivial ?_
  exact fun u _ hu => hu

theorem Fits.congr {k' : State} {q : Place} (h : k.Fits t q) (hs : k'.status t = k.status t)
    (hp : k'.point t = k.point t) : k'.Fits t q := by
  cases q <;> simp only [Fits, hs, hp] at h ⊢ <;> exact h

theorem Placed.readyToRun (h : k.Placed place) (ht : place t = .held) :
    (k.readyToRun t).Placed (Function.update place t .ready) := by
  refine h.move (by simp [ht]) (by simp [ht]) (by simp) (by simp)
    (h.ready.append (by simp [ht])) (fun s => (h.queue s).move (by simp [ht]) (by simp)) rfl rfl rfl
    rfl (Function.update_self _ _ _) ?_
  exact fun u hu hf => hf.congr (Function.update_of_ne hu _ _) rfl

theorem Placed.popQueue {s : SemPtr} {rest : List ThreadPtr} (h : k.Placed place)
    (hl : (k.semaphore s).queue = t :: rest) (value : Int) :
    (k.setSemaphore s ⟨value, rest⟩).Placed (Function.update place t .held) := by
  have hr := h.queue s
  rw [hl] at hr
  have hplace : place t = .queue s := hr.mem_iff.mp List.mem_cons_self
  refine h.move (by simp [hplace]) (by simp [hplace]) (by simp) (by simp)
    (h.ready.move (by simp [hplace]) (by simp)) (fun s' => ?_) rfl rfl rfl rfl trivial ?_
  · simp only [setSemaphore, Function.update_apply]
    split
    · rename_i hs; rw [hs]; exact hr.remove (by simp)
    · rename_i hs; exact (h.queue s').move (by simp [hplace, Ne.symm hs]) (by simp)
  · exact fun u _ hu => hu

theorem Placed.waitOn {s : SemPtr} (h : k.Placed place) (ht : place k.currentThread = .held) :
    (k.waitOn s).Placed (Function.update place k.currentThread (.queue s)) := by
  refine h.move (by simp [ht]) (by simp [ht]) (by simp) (by simp)
    (h.ready.move (by simp [ht]) (by simp)) (fun s' => ?_) rfl rfl rfl rfl
    ⟨Function.update_self _ _ _, Function.update_self _ _ _⟩ ?_
  · simp only [State.waitOn, setSemaphore, setPoint, sleep, Function.update_apply]
    split
    · rename_i hs; rw [hs]; exact (h.queue s).append (by simp [ht])
    · rename_i hs; exact (h.queue s').move (by simp [ht]) (by simp [Ne.symm hs])
  · intro u hu hf
    have hs : (k.waitOn s).status u = k.status u := Function.update_of_ne hu _ _
    have hp : (k.waitOn s).point u = k.point u := Function.update_of_ne hu _ _
    exact hf.congr hs hp

/-- A joined thread wakes up when nobody alive has it as a parent. -/
theorem Placed.wakeUpFromJoin (h : k.Placed place) (ht : place t = .joined)
    (hnone : ∀ c, place c ≠ .nowhere → k.parent c ≠ some t) :
    (k.wakeUpFromJoin t).Placed (Function.update place t .ready) := by
  have hnowhere (u : ThreadPtr) :
      Function.update place t .ready u ≠ .nowhere ↔ place u ≠ .nowhere := by
    rw [Function.update_apply]
    split
    · rename_i hu; rw [hu, ht]; simp
    · rfl
  refine ⟨h.ready.prepend (by simp [ht]), fun s => (h.queue s).move (by simp [ht]) (by simp),
    fun u => ?_, fun u => ?_, fun u => ?_, fun c p hc hcp => ?_,
    fun c c' p hc hc' => h.single c c' p ((hnowhere c).mp hc) ((hnowhere c').mp hc'), h.dead⟩
  · simp only [State.wakeUpFromJoin, Function.update_apply]
    split
    · simp
    · exact h.joined u
  · rw [hnowhere]; exact h.alive u
  · by_cases hu : u = t
    · rw [hu, Function.update_self]; exact Function.update_self _ _ _
    · rw [Function.update_of_ne hu]
      exact (h.fits u).congr (Function.update_of_ne hu _ _) rfl
  · have hc' := (hnowhere c).mp hc
    have hne : p ≠ t := by rintro rfl; exact hnone c hc' hcp
    rw [Function.update_of_ne hne]
    exact h.parent c p hc' hcp

/-- The running thread waits for a child, perhaps itself. -/
theorem Placed.join {c : ThreadPtr} (h : k.Placed place) (ht : place k.currentThread = .held) :
    (({ k with
      parent := Function.update k.parent c (some k.currentThread)
      isJoined := Function.update k.isJoined k.currentThread true }.setPoint .inJoin).sleep).Placed
      (Function.update place k.currentThread .joined) := by
  have hnowhere (u : ThreadPtr) :
      Function.update place k.currentThread .joined u ≠ .nowhere ↔ place u ≠ .nowhere := by
    rw [Function.update_apply]
    split
    · rename_i hu; rw [hu, ht]; simp
    · rfl
  -- nobody waits for a thread that runs
  have hnone (u : ThreadPtr) (hu : place u ≠ .nowhere) : k.parent u ≠ some k.currentThread := by
    intro hp
    have := h.parent u _ hu hp
    rw [ht] at this
    cases this
  refine ⟨h.ready.move (by simp [ht]) (by simp),
    fun s => (h.queue s).move (by simp [ht]) (by simp), fun u => ?_, fun u => ?_, fun u => ?_,
    fun c' p hc hcp => ?_, fun c₁ c₂ p h₁ h₂ hp₁ hp₂ => ?_, h.dead⟩
  · simp only [setPoint, sleep, Function.update_apply]
    split
    · simp
    · exact h.joined u
  · rw [hnowhere]; exact h.alive u
  · by_cases hu : u = k.currentThread
    · rw [hu, Function.update_self]
      exact ⟨Function.update_self _ _ _, Function.update_self _ _ _⟩
    · rw [Function.update_of_ne hu]
      exact (h.fits u).congr (Function.update_of_ne hu _ _) (Function.update_of_ne hu _ _)
  · simp only [setPoint, sleep, Function.update_apply] at hcp
    rw [Function.update_apply]
    split at hcp
    · cases hcp; rw [if_pos rfl]
    · have hjoined := h.parent c' p ((hnowhere c').mp hc) hcp
      rw [if_neg (by rintro rfl; rw [ht] at hjoined; cases hjoined)]
      exact hjoined
  · have h₁ := (hnowhere c₁).mp h₁
    have h₂ := (hnowhere c₂).mp h₂
    simp only [setPoint, sleep, Function.update_apply] at hp₁ hp₂
    split at hp₁ <;> split at hp₂
    · rename_i e₁ e₂; rw [e₁, e₂]
    · cases hp₁; exact absurd hp₂ (hnone c₂ h₂)
    · cases hp₂; exact absurd hp₁ (hnone c₁ h₁)
    · exact h.single c₁ c₂ p h₁ h₂ hp₁ hp₂

theorem Placed.nowhere (h : k.Placed place) (ht : k.life t ≠ .alive) : place t = .nowhere :=
  not_not.mp fun hp => ht ((h.alive t).mpr hp)

theorem Placed.fork (h : k.Placed place) (ht : k.life t = .unborn) :
    (k.fork t).Placed (Function.update place t .ready) := by
  have hplace : place t = .nowhere := h.nowhere (by simp [ht])
  have hold (u : ThreadPtr) (hu : (k.fork t).parent u ≠ none) :
      u ≠ t ∧ (k.fork t).parent u = k.parent u := by
    have hne : u ≠ t := by rintro rfl; exact hu (Function.update_self _ _ _)
    exact ⟨hne, Function.update_of_ne hne _ _⟩
  have hwas (u : ThreadPtr) (hu : u ≠ t) (h' : Function.update place t .ready u ≠ .nowhere) :
      place u ≠ .nowhere := by rwa [Function.update_of_ne hu] at h'
  refine ⟨h.ready.append (by simp [hplace]),
    fun s => (h.queue s).move (by simp [hplace]) (by simp), fun u => ?_, fun u => ?_, fun u => ?_,
    fun c p hc hcp => ?_, fun c₁ c₂ p h₁ h₂ hp₁ hp₂ => ?_, fun x hx => ?_⟩
  · simp only [State.fork, State.readyToRun, Function.update_apply]
    split
    · simp
    · exact h.joined u
  · simp only [State.fork, State.readyToRun, Function.update_apply]
    split
    · simp
    · exact h.alive u
  · by_cases hu : u = t
    · rw [hu, Function.update_self]; exact Function.update_self _ _ _
    · rw [Function.update_of_ne hu]
      exact (h.fits u).congr (Function.update_of_ne hu _ _) (Function.update_of_ne hu _ _)
  · obtain ⟨hne, he⟩ := hold c (by simp [hcp])
    have hjoined := h.parent c p (hwas c hne hc) (he ▸ hcp)
    rw [Function.update_of_ne (by rintro rfl; rw [hplace] at hjoined; cases hjoined)]
    exact hjoined
  · obtain ⟨hn₁, he₁⟩ := hold c₁ (by simp [hp₁])
    obtain ⟨hn₂, he₂⟩ := hold c₂ (by simp [hp₂])
    exact h.single c₁ c₂ p (hwas c₁ hn₁ h₁) (hwas c₂ hn₂ h₂) (he₁ ▸ hp₁) (he₂ ▸ hp₂)
  · have hdead := h.dead x hx
    have hne : x ≠ t := by rintro rfl; rw [ht] at hdead; cases hdead
    exact (Function.update_of_ne hne _ _).trans hdead

/-- The status of a thread that is in no place does not matter. -/
theorem Placed.sleep (h : k.Placed place)
    (ht : place k.currentThread = .nowhere ∨ place k.currentThread = .held) :
    k.sleep.Placed place := by
  refine h.congr rfl (fun _ => rfl) rfl rfl rfl rfl fun u hf => ?_
  by_cases hu : u = k.currentThread
  · rw [hu]
    rcases ht with ht | ht <;> rw [ht] <;> trivial
  · exact hf.congr (Function.update_of_ne hu _ _) rfl

/-- The running thread dies. -/
theorem Placed.die (h : k.Placed place) (ht : place k.currentThread = .held) :
    { k with
      threadToBeDestroyed := some k.currentThread
      life := Function.update k.life k.currentThread .finished }.Placed
      (Function.update place k.currentThread .nowhere) := by
  have hwas (u : ThreadPtr) (h' : Function.update place k.currentThread .nowhere u ≠ .nowhere) :
      u ≠ k.currentThread ∧ place u ≠ .nowhere := by
    have hne : u ≠ k.currentThread := by rintro rfl; exact h' (Function.update_self _ _ _)
    rw [Function.update_of_ne hne] at h'
    exact ⟨hne, h'⟩
  refine ⟨h.ready.move (by simp [ht]) (by simp),
    fun s => (h.queue s).move (by simp [ht]) (by simp), fun u => ?_, fun u => ?_, fun u => ?_,
    fun c p hc hcp => ?_, fun c₁ c₂ p h₁ h₂ => h.single c₁ c₂ p (hwas c₁ h₁).2 (hwas c₂ h₂).2,
    fun x hx => ?_⟩
  · rw [h.joined, Function.update_apply]
    split
    · rename_i hu; rw [hu, ht]; simp
    · rfl
  · simp only [Function.update_apply]
    split
    · simp
    · exact h.alive u
  · by_cases hu : u = k.currentThread
    · rw [hu, Function.update_self]; trivial
    · rw [Function.update_of_ne hu]; exact (h.fits u).congr rfl rfl
  · have hjoined := h.parent c p (hwas c hc).2 hcp
    rw [Function.update_of_ne (by rintro rfl; rw [ht] at hjoined; cases hjoined)]
    exact hjoined
  · cases hx; exact Function.update_self _ _ _

/-- `Finish` takes the running thread out of the world, and its parent, if one
waits, to the ready list. -/
theorem Placed.finish (h : k.Placed place) (ht : place k.currentThread = .held) :
    ∃ place', k.finish.Placed place' ∧ place' k.currentThread = .nowhere ∧
      ∀ u, u ≠ k.currentThread → place u ≠ .held → place' u ≠ .held := by
  have hdie := h.die ht
  have hgone : Function.update place k.currentThread .nowhere k.currentThread = .nowhere :=
    Function.update_self _ _ _
  unfold State.finish
  dsimp only
  split
  · refine ⟨_, hdie.sleep (.inl hgone), hgone, fun u hu hp => ?_⟩
    rwa [Function.update_of_ne hu]
  · rename_i p hp
    have halive : place k.currentThread ≠ .nowhere := by simp [ht]
    have hjoined := h.parent _ p halive hp
    have hne : p ≠ k.currentThread := by rintro rfl; rw [ht] at hjoined; cases hjoined
    have hw := hdie.wakeUpFromJoin (t := p) (by rw [Function.update_of_ne hne]; exact hjoined)
      (fun c hc hcp => ?_)
    · refine ⟨_, hw.sleep (.inl ?_), ?_, fun u hu hpl => ?_⟩
      · exact (Function.update_of_ne hne.symm _ _).trans hgone
      · exact (Function.update_of_ne hne.symm _ _).trans hgone
      · rw [Function.update_apply]
        split
        · simp
        · rwa [Function.update_of_ne hu]
    · -- the dead thread was the only one to have that parent
      have hc' : c ≠ k.currentThread := by rintro rfl; exact hc hgone
      rw [Function.update_of_ne hc'] at hc
      exact hc' (h.single c _ p hc halive hcp hp)

/-! ## Dispatching -/

theorem Placed.destroyFinished {k' : State} (h : k.Placed place)
    (hd : k.destroyFinished = .ok k') :
    k'.Placed place ∧ k'.cpu = k.cpu ∧ k'.currentThread = k.currentThread ∧
      k'.status = k.status := by
  rcases destroyFinished_cases hd with ⟨-, rfl⟩ | ⟨x, hx, -, rfl⟩
  · exact ⟨h, rfl, rfl, rfl⟩
  · have hdead := h.dead x hx
    have hplace : place x = .nowhere := h.nowhere (by simp [hdead])
    refine ⟨⟨h.ready, h.queue, h.joined, fun u => ?_, fun u => (h.fits u).congr rfl rfl,
      h.parent, h.single, fun y hy => by cases hy⟩, rfl, rfl, rfl⟩
    simp only [Function.update_apply]
    split
    · rename_i hu; rw [hu, hplace]; simp
    · exact h.alive u

theorem Placed.run {k' : State} {next : ThreadPtr} (h : k.Placed place)
    (hn : place next = .held) (hr : k.run next = .ok k') :
    k'.Placed place ∧ k'.cpu = .running ∧ k'.currentThread = next ∧
      k'.status next = .running := by
  have hplaced : (k.switchTo next).Placed place := by
    refine h.congr rfl (fun _ => rfl) rfl rfl rfl rfl fun u hf => ?_
    by_cases hu : u = next
    · rw [hu, hn]; trivial
    · exact hf.congr (Function.update_of_ne hu _ _) rfl
  rcases run_cases hr with ⟨-, rfl⟩ | ⟨-, hr⟩
  · exact ⟨hplaced, rfl, rfl, Function.update_self _ _ _⟩
  · obtain ⟨hp, hc, ht, hs⟩ := hplaced.destroyFinished hr
    exact ⟨hp, hc, ht, by rw [hs]; exact Function.update_self _ _ _⟩

/-- The one thread in the hands of the code is the one that runs. -/
structure OnCpu (k : State) (place : ThreadPtr → Place) : Prop where
  held : ∀ u, place u = .held ↔ k.cpu = .running ∧ u = k.currentThread
  status : k.cpu = .running → k.status k.currentThread = .running

/-- Every thread has its place. -/
def Inv (k : State) : Prop := ∃ place, k.Placed place ∧ k.OnCpu place

theorem OnCpu.current (h : k.OnCpu place) (hr : k.cpu = .running) :
    place k.currentThread = .held := (h.held _).mpr ⟨hr, rfl⟩

/-- Nobody is on the CPU while the current thread sleeps. -/
theorem onCpu_asleep (hr : k.cpu ≠ .running) (hh : ∀ u, place u ≠ .held) : k.OnCpu place :=
  ⟨fun u => iff_of_false (hh u) fun h => hr h.1, fun h => absurd h hr⟩

theorem OnCpu.only (h : k.OnCpu place) {u : ThreadPtr} (hu : u ≠ k.currentThread) :
    place u ≠ .held := fun hp => hu ((h.held u).mp hp).2

theorem OnCpu.congr {k' : State} (h : k.OnCpu place) (hc : k'.cpu = k.cpu)
    (ht : k'.currentThread = k.currentThread) (hs : k'.status k.currentThread =
      k.status k.currentThread) : k'.OnCpu place :=
  ⟨fun u => by rw [hc, ht]; exact h.held u, fun hr => by rw [ht, hs]; exact h.status (hc ▸ hr)⟩

/-- A thread that is not the running one moves between places out of hand. -/
theorem OnCpu.move {k' : State} {q : Place} (h : k.OnCpu place) (ht : place t ≠ .held)
    (hq : q ≠ .held) (hc : k'.cpu = k.cpu) (hcur : k'.currentThread = k.currentThread)
    (hs : k.cpu = .running → k'.status k.currentThread = k.status k.currentThread) :
    k'.OnCpu (Function.update place t q) := by
  refine ⟨fun u => ?_, fun hr => ?_⟩
  · rw [hc, hcur, Function.update_apply]
    split
    · rename_i hu
      refine iff_of_false hq fun hr => ht ?_
      rw [← hu]
      exact (h.held u).mpr hr
    · exact h.held u
  · rw [hcur, hs (hc ▸ hr)]
    exact h.status (hc ▸ hr)

/-- A thread taken off the ready list is dispatched, nobody else being on the
CPU. -/
theorem Inv.run {k' : State} {next : ThreadPtr} (h : k.Placed place) (hn : place next = .held)
    (honly : ∀ u, place u = .held → u = next) (hr : k.run next = .ok k') : k'.Inv := by
  obtain ⟨hp, hc, ht, hs⟩ := h.run hn hr
  refine ⟨place, hp, fun u => ⟨fun hu => ⟨hc, (honly u hu).trans ht.symm⟩, fun hu => ?_⟩,
    fun _ => by rw [ht]; exact hs⟩
  rw [hu.2, ht]
  exact hn

/-! ## Every event keeps the places -/

theorem Inv.yield {k' : State} (h : k.Inv) (hr : k.cpu = .running) (hy : k.yield = .ok k') :
    k'.Inv := by
  obtain ⟨place, hp, hc⟩ := h
  rcases yield_cases hy with rfl | ⟨next, rest, hl, hy⟩
  · exact ⟨place, hp, hc⟩
  · have hcur := hc.current hr
    have hready : place next = .ready := hp.ready.mem_iff.mp (hl ▸ List.mem_cons_self)
    have hne : next ≠ k.currentThread := by rintro rfl; rw [hcur] at hready; cases hready
    have hp' := (hp.popReady hl).readyToRun (t := k.currentThread)
      ((Function.update_of_ne hne.symm _ _).trans hcur)
    refine Inv.run hp' ?_ (fun u hu => ?_) hy
    · rw [Function.update_of_ne hne, Function.update_self]
    · by_contra hun
      rw [Function.update_apply] at hu
      split at hu
      · cases hu
      · rename_i hcur'
        rw [Function.update_of_ne hun] at hu
        exact hc.only hcur' hu

theorem Inv.dispatch {k' : State} (h : k.Inv) (hr : k.cpu ≠ .running)
    (hd : k.dispatch = .ok k') : k'.Inv := by
  obtain ⟨place, hp, hc⟩ := h
  obtain ⟨next, rest, hl, hd⟩ := dispatch_cases hd
  refine Inv.run (hp.popReady hl) (Function.update_self _ _ _) (fun u hu => ?_) hd
  by_contra hun
  rw [Function.update_of_ne hun] at hu
  exact hr ((hc.held u).mp hu).1

theorem Inv.setPoint (h : k.Inv) (hr : k.cpu = .running) (pt : Point) : (k.setPoint pt).Inv := by
  obtain ⟨place, hp, hc⟩ := h
  refine ⟨place, hp.congr rfl (fun _ => rfl) rfl rfl rfl rfl fun u hf => ?_, hc.congr rfl rfl rfl⟩
  by_cases hu : u = k.currentThread
  · rw [hu, hc.current hr]; trivial
  · exact hf.congr rfl (Function.update_of_ne hu _ _)

theorem Inv.start {k' : State} {user : Bool} (h : k.Inv) (hr : k.cpu = .running)
    (hs : k.start user = .ok k') : k'.Inv := by
  obtain ⟨-, ⟨-, rfl⟩ | ⟨-, rfl⟩⟩ := start_cases hs
  · exact h.setPoint hr .enabled
  · exact h.setPoint hr .code

theorem Inv.create {k' : State} (h : k.Inv) (hr : k.cpu = .running) (hs : k.create = .ok k') :
    k'.Inv := by
  obtain ⟨-, hs⟩ := create_cases hs
  obtain ⟨place, hp, hc⟩ := h.setPoint hr .code
  obtain ⟨hp', hcpu, hcur, hst⟩ := hp.destroyFinished hs
  exact ⟨place, hp', hc.congr hcpu hcur (by rw [hst])⟩

/-- What only the statements count does not matter. -/
theorem Inv.counted (h : k.Inv) (p v w : SemPtr → Nat) :
    { k with completedP := p, completedV := v, woken := w }.Inv := by
  obtain ⟨place, hp, hc⟩ := h
  exact ⟨place, hp.congr rfl (fun _ => rfl) rfl rfl rfl rfl fun u hf => hf.congr rfl rfl,
    hc.congr rfl rfl rfl⟩

theorem Inv.setValue (h : k.Inv) (s : SemPtr) (value : Int) :
    (k.setSemaphore s ⟨value, (k.semaphore s).queue⟩).Inv := by
  obtain ⟨place, hp, hc⟩ := h
  refine ⟨place, hp.congr rfl (fun s' => ?_) rfl rfl rfl rfl fun u hf => hf.congr rfl rfl,
    hc.congr rfl rfl rfl⟩
  simp only [setSemaphore, Function.update_apply]
  split
  · rename_i hs; rw [hs]
  · rfl

theorem Inv.test {k' : State} {s : SemPtr} (h : k.Inv) (hr : k.cpu = .running)
    (ht : k.test s = .ok k') : k'.Inv := by
  rcases test_cases ht with ⟨-, rfl⟩ | ⟨-, rfl⟩
  · obtain ⟨place, hp, hc⟩ := h
    refine ⟨_, hp.waitOn (hc.current hr), onCpu_asleep (by simp [State.waitOn, sleep]) fun u => ?_⟩
    rw [Function.update_apply]
    split
    · simp
    · rename_i hu; exact hc.only hu
  · exact ((h.setValue s _).setPoint hr .code).counted _ _ _

theorem Inv.v {k' : State} {s : SemPtr} (h : k.Inv) (hv : k.v s = .ok k') : k'.Inv := by
  rcases v_cases hv with ⟨hq, rfl⟩ | ⟨t, rest, hq, rfl⟩
  · have hset := h.setValue s ((k.semaphore s).value + 1)
    rw [hq] at hset
    exact hset.counted k.completedP (count k.completedV s) k.woken
  · obtain ⟨place, hp, hc⟩ := h
    have hplace : place t = .queue s := (hp.queue s).mem_iff.mp (hq ▸ List.mem_cons_self)
    have hp' := (hp.popQueue hq ((k.semaphore s).value + 1)).readyToRun (Function.update_self _ _ _)
    rw [Function.update_idem] at hp'
    have hne : k.cpu = .running → k.currentThread ≠ t := by
      rintro hr rfl
      rw [hc.current hr] at hplace
      cases hplace
    refine ⟨_, hp'.congr rfl (fun _ => rfl) rfl rfl rfl rfl fun u hf => hf.congr rfl rfl,
      hc.move (by simp [hplace]) (by simp) rfl rfl fun hr => Function.update_of_ne (hne hr) _ _⟩

theorem Inv.resume {k' : State} (h : k.Inv) (hr : k.cpu = .running) (hs : k.resume = .ok k') :
    k'.Inv := by
  rcases resume_cases hs with ⟨s, -, ht⟩ | ⟨-, rfl⟩
  · exact Inv.test (h.counted k.completedP k.completedV
      (Function.update k.woken s (k.woken s - 1))) hr ht
  · exact h.setPoint hr .code

theorem Inv.join (h : k.Inv) (hr : k.cpu = .running) (c : ThreadPtr) : (k.join c).Inv := by
  unfold State.join
  split
  · obtain ⟨place, hp, hc⟩ := h
    refine ⟨_, hp.join (hc.current hr), onCpu_asleep (by simp [sleep]) fun u => ?_⟩
    rw [Function.update_apply]
    split
    · simp
    · rename_i hu; exact hc.only hu
  · exact h

theorem Inv.finish (h : k.Inv) (hr : k.cpu = .running) : k.finish.Inv := by
  obtain ⟨place, hp, hc⟩ := h
  obtain ⟨place', hp', hgone, hheld⟩ := hp.finish (hc.current hr)
  have hcpu : k.finish.cpu ≠ .running := by
    unfold State.finish
    dsimp only
    split <;> simp [State.sleep]
  refine ⟨place', hp', onCpu_asleep hcpu fun u => ?_⟩
  by_cases hu : u = k.currentThread
  · rw [hu, hgone]; simp
  · exact hheld u hu (hc.only hu)

theorem Inv.fork (h : k.Inv) (hr : k.cpu = .running) (ht : k.life t = .unborn) :
    (k.fork t).Inv := by
  obtain ⟨place, hp, hc⟩ := h
  have hplace : place t = .nowhere := hp.nowhere (by simp [ht])
  have hne : k.currentThread ≠ t := by
    rintro rfl
    rw [hc.current hr] at hplace
    cases hplace
  exact ⟨_, hp.fork ht, hc.move (by simp [hplace]) (by simp) rfl rfl
    fun _ => Function.update_of_ne hne _ _⟩

theorem step_inv {k' : State} {e : Event} (h : k.Inv) (hs : k.step e = .ok k') : k'.Inv := by
  cases e with
  | fork t =>
    obtain ⟨⟨hc, ht⟩, hk⟩ := ite_error_eq_ok.mp hs
    cases hk
    exact h.fork hc.1 ht
  | start user =>
    obtain ⟨hc, hk⟩ := ite_error_eq_ok.mp hs
    exact h.start hc hk
  | create =>
    obtain ⟨hc, hk⟩ := ite_error_eq_ok.mp hs
    exact h.create hc hk
  | yield =>
    obtain ⟨hc, hk⟩ := ite_error_eq_ok.mp hs
    exact h.yield hc.1 hk
  | p s =>
    obtain ⟨hc, hk⟩ := ite_error_eq_ok.mp hs
    exact h.test hc.1 hk
  | resume =>
    obtain ⟨hc, hk⟩ := ite_error_eq_ok.mp hs
    exact h.resume hc hk
  | v s =>
    obtain ⟨-, hk⟩ := ite_error_eq_ok.mp hs
    exact h.v hk
  | interrupt s =>
    obtain ⟨-, hk⟩ := ite_error_eq_ok.mp hs
    exact h.v hk
  | join child =>
    obtain ⟨hc, hk⟩ := ite_error_eq_ok.mp hs
    cases hk
    exact h.join hc.1 child
  | finish =>
    obtain ⟨hc, hk⟩ := ite_error_eq_ok.mp hs
    cases hk
    exact h.finish hc.1
  | idle =>
    obtain ⟨hc, hk⟩ := ite_error_eq_ok.mp hs
    cases hk
    obtain ⟨place, hp, ho⟩ := h
    refine ⟨place, hp.congr rfl (fun _ => rfl) rfl rfl rfl rfl fun u hf => hf.congr rfl rfl,
      onCpu_asleep (by simp) fun u hu => ?_⟩
    have := ((ho.held u).mp hu).1
    rw [hc.1] at this
    cases this
  | dispatch =>
    obtain ⟨hc, hk⟩ := ite_error_eq_ok.mp hs
    exact h.dispatch hc hk

theorem init_inv (value : SemPtr → Int) : (init value).Inv := by
  have hheld (u : ThreadPtr) : Function.update (fun _ => Place.nowhere) 0 .held u ≠ .ready ∧
      Function.update (fun _ => Place.nowhere) 0 .held u ≠ .joined ∧
      ∀ s, Function.update (fun _ => Place.nowhere) 0 .held u ≠ .queue s := by
    rw [Function.update_apply]
    split <;> simp
  refine ⟨Function.update (fun _ => .nowhere) 0 .held,
    ⟨lists_nil fun u => (hheld u).1, fun s => lists_nil fun u => (hheld u).2.2 s,
      fun u => iff_of_false (by simp [init]) (hheld u).2.1, fun u => ?_, fun u => ?_,
      fun _ _ _ hp => (nomatch hp), fun _ _ _ _ _ hp => (nomatch hp), fun _ hx => (nomatch hx)⟩,
    fun u => ?_, fun _ => rfl⟩
  · simp only [init, Function.update_apply]
    split <;> simp
  · rw [Function.update_apply]
    split <;> trivial
  · simp only [init, Function.update_apply]
    split <;> simp_all

/-! ## Lives only go forward -/

end State

def Life.rank : Life → Nat
  | .unborn => 0
  | .alive => 1
  | .finished => 2
  | .destroyed => 3

theorem Life.rank_le (l : Life) : l.rank ≤ Life.rank .destroyed := by cases l <;> decide

namespace State

variable {k : State} {place : ThreadPtr → Place} {t : ThreadPtr}

theorem rank_le_update {x : ThreadPtr} {l : Life} (h : (k.life x).rank ≤ l.rank) :
    (k.life t).rank ≤ (Function.update k.life x l t).rank := by
  rw [Function.update_apply]
  split
  · rename_i ht; rw [ht]; exact h
  · exact Nat.le_refl _

theorem destroyFinished_rank {k' : State} (hd : k.destroyFinished = .ok k') :
    (k.life t).rank ≤ (k'.life t).rank := by
  rcases destroyFinished_cases hd with ⟨-, rfl⟩ | ⟨x, -, -, rfl⟩
  · exact Nat.le_refl _
  · exact rank_le_update (Life.rank_le _)

theorem run_rank {k' : State} {next : ThreadPtr} (hr : k.run next = .ok k') :
    (k.life t).rank ≤ (k'.life t).rank := by
  rcases run_cases hr with ⟨-, rfl⟩ | ⟨-, hr⟩
  · exact Nat.le_refl _
  · have hrank := destroyFinished_rank (t := t) hr
    exact hrank

theorem test_life {k' : State} {s : SemPtr} (ht : k.test s = .ok k') : k'.life = k.life := by
  rcases test_cases ht with ⟨-, rfl⟩ | ⟨-, rfl⟩
  · rfl
  · rfl

theorem v_life {k' : State} {s : SemPtr} (hv : k.v s = .ok k') : k'.life = k.life := by
  rcases v_cases hv with ⟨-, rfl⟩ | ⟨t, rest, -, rfl⟩
  · rfl
  · rfl

theorem finish_life (k : State) :
    k.finish.life = Function.update k.life k.currentThread .finished := by
  unfold State.finish
  dsimp only
  split <;> rfl

theorem Inv.current_alive (h : k.Inv) (hr : k.cpu = .running) :
    k.life k.currentThread = .alive := by
  obtain ⟨place, hp, hc⟩ := h
  rw [hp.alive, hc.current hr]
  simp

theorem step_rank {k' : State} {e : Event} (hi : k.Inv) (hs : k.step e = .ok k') :
    (k.life t).rank ≤ (k'.life t).rank := by
  cases e with
  | fork c =>
    obtain ⟨⟨-, hc⟩, hk⟩ := ite_error_eq_ok.mp hs
    cases hk
    exact rank_le_update (by rw [hc]; decide)
  | start user =>
    obtain ⟨-, hk⟩ := ite_error_eq_ok.mp hs
    obtain ⟨-, ⟨-, rfl⟩ | ⟨-, rfl⟩⟩ := start_cases hk
    · exact Nat.le_refl _
    · exact Nat.le_refl _
  | create =>
    obtain ⟨-, hk⟩ := ite_error_eq_ok.mp hs
    have hrank := destroyFinished_rank (t := t) (create_cases hk).2
    exact hrank
  | yield =>
    obtain ⟨-, hk⟩ := ite_error_eq_ok.mp hs
    rcases yield_cases hk with rfl | ⟨next, rest, -, hk⟩
    · exact Nat.le_refl _
    · have hrank := run_rank (t := t) hk
      exact hrank
  | p s =>
    obtain ⟨-, hk⟩ := ite_error_eq_ok.mp hs
    exact Nat.le_of_eq (by rw [test_life hk])
  | resume =>
    obtain ⟨-, hk⟩ := ite_error_eq_ok.mp hs
    rcases resume_cases hk with ⟨s, -, ht⟩ | ⟨-, rfl⟩
    · exact Nat.le_of_eq (by rw [test_life ht])
    · exact Nat.le_refl _
  | v s =>
    obtain ⟨-, hk⟩ := ite_error_eq_ok.mp hs
    exact Nat.le_of_eq (by rw [v_life hk])
  | interrupt s =>
    obtain ⟨-, hk⟩ := ite_error_eq_ok.mp hs
    exact Nat.le_of_eq (by rw [v_life hk])
  | join child =>
    obtain ⟨-, hk⟩ := ite_error_eq_ok.mp hs
    cases hk
    unfold State.join
    split <;> exact Nat.le_refl _
  | finish =>
    obtain ⟨hc, hk⟩ := ite_error_eq_ok.mp hs
    cases hk
    rw [finish_life]
    exact rank_le_update (by rw [hi.current_alive hc.1]; decide)
  | idle =>
    obtain ⟨-, hk⟩ := ite_error_eq_ok.mp hs
    cases hk
    exact Nat.le_refl _
  | dispatch =>
    obtain ⟨-, hk⟩ := ite_error_eq_ok.mp hs
    obtain ⟨next, rest, -, hk⟩ := dispatch_cases hk
    have hrank := run_rank (t := t) hk
    exact hrank

/-- `Finish` has been called, whether or not the thread is deleted by now. -/
def Gone (k : State) (t : ThreadPtr) : Prop := k.life t = .finished ∨ k.life t = .destroyed

/-- No event brings a finished thread back. -/
theorem Gone.step {k' : State} {e : Event} (h : k.Gone t) (hi : k.Inv) (hs : k.step e = .ok k') :
    k'.Gone t := by
  have hrank := step_rank (t := t) hi hs
  unfold Gone
  rcases h with h | h <;> rw [h] at hrank <;> cases hl : k'.life t <;> simp_all [Life.rank]

theorem unborn_of_step {k' : State} {e : Event} (hi : k.Inv) (hs : k.step e = .ok k')
    (h : k'.life t = .unborn) : k.life t = .unborn := by
  have hrank := step_rank (t := t) hi hs
  rw [h] at hrank
  cases hl : k.life t <;> simp_all [Life.rank]

/-! ## One place for each thread -/

/-- Once on the ready list, and on no semaphore's queue. -/
def IsReady (k : State) (t : ThreadPtr) : Prop :=
  k.readyList.count t = 1 ∧ (∀ s, t ∉ (k.semaphore s).queue) ∧ k.status t = .ready

/-- Once on the queue of exactly one semaphore, and not on the ready list. -/
def IsWaiting (k : State) (t : ThreadPtr) : Prop :=
  t ∉ k.readyList ∧ k.status t = .blocked ∧
    ∃ s, (k.semaphore s).queue.count t = 1 ∧ ∀ s', s' ≠ s → t ∉ (k.semaphore s').queue

def OnNoQueue (k : State) (t : ThreadPtr) : Prop :=
  t ∉ k.readyList ∧ ∀ s, t ∉ (k.semaphore s).queue

/-- Asleep in `SC_Join`. -/
def IsJoining (k : State) (t : ThreadPtr) : Prop :=
  k.OnNoQueue t ∧ k.status t = .blocked ∧ k.point t = .inJoin ∧ k.isJoined t = true

theorem Placed.onNoQueue (h : k.Placed place) (hr : place t ≠ .ready)
    (hq : ∀ s, place t ≠ .queue s) : k.OnNoQueue t :=
  ⟨h.ready.notMem rfl hr, fun s => (h.queue s).notMem rfl (hq s)⟩

theorem Placed.cases (h : k.Placed place) (ht : place t ≠ .held) (halive : k.life t = .alive) :
    k.IsReady t ∨ k.IsWaiting t ∨ k.IsJoining t := by
  have hfits := h.fits t
  cases hp : place t with
  | nowhere => exact absurd hp ((h.alive t).mp halive)
  | held => exact absurd hp ht
  | ready =>
    rw [hp] at hfits
    exact .inl ⟨h.ready.count_of_mem (h.ready.mem_iff.mpr hp),
      fun s => (h.queue s).notMem hp (by simp), hfits⟩
  | queue s =>
    rw [hp] at hfits
    refine .inr (.inl ⟨h.ready.notMem hp (by simp), hfits.1, s,
      (h.queue s).count_of_mem ((h.queue s).mem_iff.mpr hp), fun s' hs => ?_⟩)
    exact (h.queue s').notMem hp (by simpa using hs.symm)
  | joined =>
    rw [hp] at hfits
    exact .inr (.inr ⟨h.onNoQueue (by simp [hp]) (by simp [hp]), hfits.1, hfits.2,
      (h.joined t).mpr hp⟩)

theorem Inv.gone (h : k.Inv) (ht : k.Gone t) :
    k.OnNoQueue t ∧ ¬ (k.cpu = .running ∧ k.currentThread = t) := by
  obtain ⟨place, hp, hc⟩ := h
  have hplace : place t = .nowhere := hp.nowhere (by rcases ht with h | h <;> simp [h])
  refine ⟨hp.onNoQueue (by simp [hplace]) (by simp [hplace]), ?_⟩
  rintro ⟨hr, rfl⟩
  rw [hc.current hr] at hplace
  cases hplace

end State

open State

/-- Each thread is in one place. -/
theorem one_place (value : SemPtr → Int) {es : List Event} {k : State}
    (hr : Run step (init value) es k) :
    (k.cpu = .running →
      k.status k.currentThread = .running ∧ k.OnNoQueue k.currentThread ∧
      ∀ t, t ≠ k.currentThread → k.life t = .alive → k.IsReady t ∨ k.IsWaiting t ∨ k.IsJoining t) ∧
    ∀ t, k.Gone t → k.OnNoQueue t ∧ ∀ fs k', Run step k fs k' →
      k'.OnNoQueue t ∧ ¬ (k'.cpu = .running ∧ k'.currentThread = t) := by
  have hinv : k.Inv := hr.inv (fun _ _ _ => step_inv) (init_inv value)
  refine ⟨fun hcpu => ?_, fun t ht => ⟨(hinv.gone ht).1, fun fs k' hr' => ?_⟩⟩
  · obtain ⟨place, hp, hc⟩ := hinv
    have hheld := hc.current hcpu
    exact ⟨hc.status hcpu, hp.onNoQueue (by simp [hheld]) (by simp [hheld]),
      fun t ht halive => hp.cases (hc.only ht) halive⟩
  · have hlater : k'.Inv ∧ k'.Gone t := hr'.inv (I := fun k => k.Inv ∧ k.Gone t)
      (fun _ _ _ h hs => ⟨step_inv h.1 hs, h.2.step h.1 hs⟩) ⟨hinv, ht⟩
    exact hlater.1.gone hlater.2

/-- Thread 3 runs, 4 is ready, 0 waits, 1 has joined 3, and 2 is gone. -/
theorem one_place_five : ∃ k, Run step (init fun _ => 0)
      [.fork 1, .fork 2, .fork 3, .fork 4, .p 5, .dispatch, .start true, .create, .join 2,
        .dispatch, .start true, .create, .finish, .dispatch, .resume, .join 3, .dispatch,
        .start true] k ∧
    (k.cpu = .running ∧ k.currentThread = 3 ∧ k.status 3 = .running ∧ k.OnNoQueue 3) ∧
    (k.life 0 = .alive ∧ k.life 1 = .alive ∧ k.life 4 = .alive ∧
      ∀ t, t ≠ 3 → k.life t = .alive → k.IsReady t ∨ k.IsWaiting t ∨ k.IsJoining t) ∧
    k.Gone 2 ∧ k.OnNoQueue 2 := by
  have hp : continues step (init fun _ => 0)
      [.fork 1, .fork 2, .fork 3, .fork 4, .p 5, .dispatch, .start true, .create, .join 2,
        .dispatch, .start true, .create, .finish, .dispatch, .resume, .join 3, .dispatch,
        .start true]
      (fun k => decide (k.cpu = .running ∧ k.currentThread = 3 ∧ k.life 2 = .destroyed ∧
        k.life 0 = .alive ∧ k.life 1 = .alive ∧ k.life 4 = .alive)) = true := by decide
  obtain ⟨k, hr, hk⟩ := continues_iff.mp hp
  obtain ⟨hcpu, hcur, h2, h0, h1, h4⟩ := of_decide_eq_true hk
  obtain ⟨hrun, hgone⟩ := one_place _ hr
  obtain ⟨hstatus, hqueue, hothers⟩ := hrun hcpu
  rw [hcur] at hstatus hqueue hothers
  exact ⟨k, hr, ⟨hcpu, hcur, hstatus, hqueue⟩, ⟨h0, h1, h4, hothers⟩, .inr h2,
    (hgone 2 (.inr h2)).1⟩

end Nachos.Synch

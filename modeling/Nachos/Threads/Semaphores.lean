import Nachos.Threads.Places

/-! Semaphores neither over-admit nor lose wakeups (synch.cc). The value is what
the completed operations leave of the first one. A waiter that `V` wakes takes
nothing with it: it tests the value again when it runs, and another thread may
have been faster. So a queue may be non-empty while the value is positive, but
then there are as many woken threads on their way back to the test. These are
the threads awake, on the ready list or the CPU, whose stack is in the loop of
`P`. -/

namespace Nachos.Synch
open Lib
namespace State

/-- The threads that are not blocked. -/
def awake (k : State) : List ThreadPtr :=
  if k.cpu = .running then k.currentThread :: k.readyList else k.readyList

def inLoop (k : State) (s : SemPtr) (t : ThreadPtr) : Bool := k.point t = .inP s

/-- How many threads are off the queue and have still to test the value. -/
def returning (k : State) (s : SemPtr) : Nat := k.awake.countP (k.inLoop s)

/-- The ledger of one semaphore that began with the value `n`. -/
structure Balanced (k : State) (s : SemPtr) (n : Int) : Prop where
  value : (k.semaphore s).value = n + k.completedV s - k.completedP s
  nonneg : 0 ≤ (k.semaphore s).value
  served : (k.semaphore s).queue ≠ [] → (k.semaphore s).value ≤ k.woken s
  woken : k.woken s = k.returning s

variable {k k' : State} {s : SemPtr} {n : Int}

theorem awake_running (h : k.cpu = .running) : k.awake = k.currentThread :: k.readyList := if_pos h

theorem awake_asleep (h : k.cpu ≠ .running) : k.awake = k.readyList := if_neg h

theorem returning_running (h : k.cpu = .running) :
    k.returning s = k.readyList.countP (k.inLoop s) +
      if k.inLoop s k.currentThread then 1 else 0 := by
  rw [returning, awake_running h, List.countP_cons]

theorem returning_asleep (h : k.cpu ≠ .running) :
    k.returning s = k.readyList.countP (k.inLoop s) := by
  rw [returning, awake_asleep h]

/-- An event that is none of the semaphore's. -/
theorem Balanced.congr (h : k.Balanced s n) (hs : k'.semaphore s = k.semaphore s)
    (hp : k'.completedP s = k.completedP s) (hv : k'.completedV s = k.completedV s)
    (hw : k'.woken s = k.woken s) (hr : k'.returning s = k.returning s) : k'.Balanced s n where
  value := by rw [hs, hp, hv]; exact h.value
  nonneg := by rw [hs]; exact h.nonneg
  served := by rw [hs, hw]; exact h.served
  woken := by rw [hw, hr]; exact h.woken

/-! ## What the scheduler leaves alone -/

/-- Nothing that a ledger is about changes, but who is awake may. -/
structure Unmoved (k k' : State) : Prop where
  semaphore : k'.semaphore = k.semaphore
  completedP : k'.completedP = k.completedP
  completedV : k'.completedV = k.completedV
  woken : k'.woken = k.woken
  point : k'.point = k.point

theorem destroyFinished_unmoved (hd : k.destroyFinished = .ok k') :
    k.Unmoved k' ∧ k'.awake = k.awake ∧ k'.cpu = k.cpu ∧ k'.currentThread = k.currentThread ∧
      k'.readyList = k.readyList := by
  rcases destroyFinished_cases hd with ⟨-, rfl⟩ | ⟨x, -, -, rfl⟩
  · exact ⟨⟨rfl, rfl, rfl, rfl, rfl⟩, rfl, rfl, rfl, rfl⟩
  · exact ⟨⟨rfl, rfl, rfl, rfl, rfl⟩, rfl, rfl, rfl, rfl⟩

theorem run_unmoved {next : ThreadPtr} (hr : k.run next = .ok k') :
    k.Unmoved k' ∧ k'.awake = next :: k.readyList := by
  rcases run_cases hr with ⟨-, rfl⟩ | ⟨-, hr⟩
  · exact ⟨⟨rfl, rfl, rfl, rfl, rfl⟩, awake_running rfl⟩
  · obtain ⟨⟨h₁, h₂, h₃, h₄, h₅⟩, ha, -⟩ := destroyFinished_unmoved hr
    exact ⟨⟨h₁, h₂, h₃, h₄, h₅⟩, ha.trans (awake_running rfl)⟩

/-- The woken threads are counted over those awake in any order. -/
theorem Balanced.unmoved (h : k.Balanced s n) (hu : k.Unmoved k') (hp : k'.awake.Perm k.awake) :
    k'.Balanced s n := by
  refine h.congr (by rw [hu.semaphore]) (by rw [hu.completedP]) (by rw [hu.completedV])
    (by rw [hu.woken]) ?_
  have hloop : k'.inLoop s = k.inLoop s := by funext t; unfold inLoop; rw [hu.point]
  rw [returning, returning, hloop]
  exact hp.countP_eq _

theorem Balanced.yield (h : k.Balanced s n) (hr : k.cpu = .running) (hy : k.yield = .ok k') :
    k'.Balanced s n := by
  rcases yield_cases hy with rfl | ⟨next, rest, hl, hy⟩
  · exact h
  · obtain ⟨⟨h₁, h₂, h₃, h₄, h₅⟩, ha⟩ := run_unmoved hy
    refine h.unmoved ⟨h₁, h₂, h₃, h₄, h₅⟩ ?_
    rw [ha, awake_running hr, hl]
    exact (List.perm_append_singleton k.currentThread (next :: rest))

theorem Balanced.dispatch (h : k.Balanced s n) (hr : k.cpu ≠ .running)
    (hd : k.dispatch = .ok k') : k'.Balanced s n := by
  obtain ⟨next, rest, hl, hd⟩ := dispatch_cases hd
  obtain ⟨⟨h₁, h₂, h₃, h₄, h₅⟩, ha⟩ := run_unmoved hd
  refine h.unmoved ⟨h₁, h₂, h₃, h₄, h₅⟩ ?_
  rw [ha, awake_asleep hr, hl]

/-! ## Threads outside the loop -/

/-- Who is not in the loop of `P` is not counted. -/
theorem countP_eq_of_point {l : List ThreadPtr}
    (h : ∀ t ∈ l, k'.inLoop s t = k.inLoop s t) : l.countP (k'.inLoop s) = l.countP (k.inLoop s) :=
  List.countP_congr fun t ht => by rw [h t ht]

theorem inLoop_of_ne {t : ThreadPtr} {pt : Point} (ht : k.point t = pt) (hpt : pt ≠ .inP s) :
    k.inLoop s t = false := by
  unfold inLoop
  rw [ht]
  exact decide_eq_false hpt

theorem Balanced.setPoint (h : k.Balanced s n) (pt : Point)
    (hold : k.point k.currentThread ≠ .inP s) (hnew : pt ≠ .inP s) :
    (k.setPoint pt).Balanced s n := by
  refine h.congr rfl rfl rfl rfl (countP_eq_of_point fun t _ => ?_)
  by_cases ht : t = k.currentThread
  · rw [ht, inLoop_of_ne rfl hold, inLoop_of_ne (Function.update_self _ _ _) hnew]
  · unfold inLoop
    rw [show (k.setPoint pt).point t = k.point t from Function.update_of_ne ht _ _]

/-- The running thread goes to sleep outside the loop of `P`. -/
theorem Balanced.sleep (h : k.Balanced s n) (hr : k.cpu = .running)
    (hp : k.point k.currentThread ≠ .inP s) : k.sleep.Balanced s n := by
  refine h.congr rfl rfl rfl rfl ?_
  rw [returning_running hr, inLoop_of_ne rfl hp, returning_asleep (by simp [State.sleep])]
  rfl

theorem Balanced.start {user : Bool} (h : k.Balanced s n) (hs : k.start user = .ok k') :
    k'.Balanced s n := by
  obtain ⟨hpt, ⟨-, rfl⟩ | ⟨-, rfl⟩⟩ := start_cases hs
  · exact h.setPoint .enabled (by simp [hpt]) (by simp)
  · exact h.setPoint .code (by simp [hpt]) (by simp)

theorem Balanced.create (h : k.Balanced s n) (hs : k.create = .ok k') : k'.Balanced s n := by
  obtain ⟨hpt, hs⟩ := create_cases hs
  have hset := h.setPoint .code (by simp [hpt]) (by simp)
  obtain ⟨hu, ha, -⟩ := destroyFinished_unmoved hs
  exact hset.unmoved hu (by rw [ha])

theorem Balanced.join (h : k.Balanced s n) (hc : k.InCode) (c : ThreadPtr) :
    (k.join c).Balanced s n := by
  unfold State.join
  split
  · have hset := h.setPoint .inJoin (by simp [hc.2]) (by simp)
    have hsleep := hset.sleep hc.1 (by simp [State.setPoint])
    exact hsleep.congr rfl rfl rfl rfl rfl
  · exact h

/-- A thread that is not in the loop of `P` becomes ready. -/
theorem Balanced.awaken (h : k.Balanced s n) {t : ThreadPtr} (hpt : k'.point t ≠ .inP s)
    (hs : k'.semaphore = k.semaphore) (hp : k'.completedP = k.completedP)
    (hv : k'.completedV = k.completedV) (hw : k'.woken = k.woken)
    (hpoint : ∀ u ∈ k.awake, k'.point u = k.point u) (ha : k'.awake.Perm (t :: k.awake)) :
    k'.Balanced s n := by
  refine h.congr (by rw [hs]) (by rw [hp]) (by rw [hv]) (by rw [hw]) ?_
  rw [returning, ha.countP_eq, List.countP_cons, inLoop_of_ne rfl hpt]
  exact countP_eq_of_point fun u hu => by unfold inLoop; rw [hpoint u hu]

theorem Balanced.fork {t : ThreadPtr} (h : k.Balanced s n) (hr : k.cpu = .running)
    (ht : t ∉ k.awake) : (k.fork t).Balanced s n := by
  refine h.awaken (t := t) ?_ rfl rfl rfl rfl (fun u hu => ?_) ?_
  · rw [show (k.fork t).point t = .root from Function.update_self _ _ _]
    simp
  · have hne : u ≠ t := by rintro rfl; exact ht hu
    exact Function.update_of_ne hne _ _
  · rw [awake_running hr, awake_running (k := k.fork t) hr]
    exact List.perm_append_singleton t (k.currentThread :: k.readyList)

theorem Balanced.finish (h : k.Balanced s n) (hc : k.InCode)
    (hparent : ∀ p, k.parent k.currentThread = some p → k.point p = .inJoin) :
    k.finish.Balanced s n := by
  have hsleep := h.sleep hc.1 (by simp [hc.2])
  unfold State.finish
  dsimp only
  split
  · exact hsleep.congr rfl rfl rfl rfl rfl
  · rename_i p hp
    refine hsleep.awaken (t := p) ?_ rfl rfl rfl rfl (fun _ _ => rfl) ?_
    · change k.point p ≠ .inP s
      simp [hparent p hp]
    · rw [awake_asleep (by simp [State.sleep]), awake_asleep (by simp [State.sleep])]
      rfl

/-! ## The operations -/

/-- The ledger while a thread is at the test of the loop of `P`, of the
semaphore `s'`: it is not counted among the woken any more. -/
structure Testing (k : State) (s' s : SemPtr) (n : Int) : Prop where
  running : k.cpu = .running
  current : k.currentThread ∉ k.readyList
  value : (k.semaphore s).value = n + k.completedV s - k.completedP s
  nonneg : 0 ≤ (k.semaphore s).value
  served : (k.semaphore s).queue ≠ [] →
    (k.semaphore s).value ≤ k.woken s + if s = s' then 1 else 0
  woken : k.woken s = k.readyList.countP (k.inLoop s)

/-- A change of the running thread's stack is none of the ready threads'. -/
theorem countP_readyList {pt : Point} (hp : k'.point = Function.update k.point k.currentThread pt)
    (hcur : k.currentThread ∉ k.readyList) :
    k.readyList.countP (k'.inLoop s) = k.readyList.countP (k.inLoop s) := by
  refine countP_eq_of_point fun t ht => ?_
  have hne : t ≠ k.currentThread := by rintro rfl; exact hcur ht
  unfold inLoop
  rw [hp, Function.update_of_ne hne]

theorem Testing.wait {s' : SemPtr} (h : k.Testing s' s n) (hzero : (k.semaphore s').value = 0) :
    (k.waitOn s').Balanced s n := by
  have hsem : ((k.waitOn s').semaphore s).value = (k.semaphore s).value := by
    simp only [waitOn, setSemaphore, State.setPoint, State.sleep, Function.update_apply]
    split
    · rename_i hs; rw [hs]
    · rfl
  refine ⟨?_, ?_, fun hq => ?_, ?_⟩
  · rw [hsem]; exact h.value
  · rw [hsem]; exact h.nonneg
  · rw [hsem]
    by_cases hs : s = s'
    · rw [hs, hzero]; exact Int.natCast_nonneg _
    · have hsame : (k.waitOn s').semaphore s = k.semaphore s := Function.update_of_ne hs _ _
      rw [hsame] at hq
      have := h.served hq
      rw [if_neg hs] at this
      change (k.semaphore s).value ≤ k.woken s
      omega
  · rw [returning_asleep (by simp [waitOn, State.sleep])]
    exact h.woken.trans (countP_readyList rfl h.current).symm

theorem Testing.take {s' : SemPtr} (h : k.Testing s' s n) (hne : (k.semaphore s').value ≠ 0)
    (hk : k' = { (k.setSemaphore s' ⟨(k.semaphore s').value - 1, (k.semaphore s').queue⟩).setPoint
      .code with completedP := count k.completedP s' }) : k'.Balanced s n := by
  have hpoint : k'.point = Function.update k.point k.currentThread .code := by rw [hk]; rfl
  have hready : k'.readyList = k.readyList := by rw [hk]; rfl
  have hcur : k'.currentThread = k.currentThread := by rw [hk]; rfl
  have hsem : k'.semaphore = Function.update k.semaphore s'
    ⟨(k.semaphore s').value - 1, (k.semaphore s').queue⟩ := by rw [hk]; rfl
  have hcompleted : k'.completedP = count k.completedP s' := by rw [hk]
  have hcompletedV : k'.completedV = k.completedV := by rw [hk]; rfl
  have hsame : k'.woken = k.woken := by rw [hk]; rfl
  have hat : k'.point k'.currentThread = .code := by rw [hpoint, hcur, Function.update_self]
  have hcode : k'.inLoop s k'.currentThread = false := inLoop_of_ne hat (by simp)
  have hwoken : k'.woken s = k'.returning s := by
    rw [returning_running (by rw [hk]; exact h.running), hcode, hready, hsame]
    exact h.woken.trans (countP_readyList hpoint h.current).symm
  have hvalue := h.value
  have hnonneg := h.nonneg
  by_cases hs : s = s'
  · subst hs
    have hserved := h.served
    rw [if_pos rfl] at hserved
    refine ⟨?_, ?_, fun hq => ?_, hwoken⟩
    all_goals simp only [hsem, hcompleted, hcompletedV, hsame, Function.update_self, count] at *
    · omega
    · omega
    · have := hserved hq; omega
  · have hsem : k'.semaphore s = k.semaphore s := by rw [hsem, Function.update_of_ne hs]
    have hcount : k'.completedP s = k.completedP s := by
      rw [hcompleted, count, Function.update_of_ne hs]
    refine ⟨?_, ?_, fun hq => ?_, hwoken⟩
    · rw [hsem, hcount, hcompletedV]; exact hvalue
    · rw [hsem]; exact hnonneg
    · rw [hsem] at hq ⊢
      have := h.served hq
      rw [if_neg hs] at this
      rw [hsame]
      omega

theorem Testing.test {s' : SemPtr} (h : k.Testing s' s n) (ht : k.test s' = .ok k') :
    k'.Balanced s n := by
  rcases test_cases ht with ⟨hzero, rfl⟩ | ⟨hne, rfl⟩
  · exact h.wait hzero
  · exact h.take hne rfl

/-- `P` from the beginning. -/
theorem Balanced.testing (h : k.Balanced s n) (hc : k.InCode)
    (hcur : k.currentThread ∉ k.readyList) (s' : SemPtr) : k.Testing s' s n := by
  refine ⟨hc.1, hcur, h.value, h.nonneg, fun hq => ?_, ?_⟩
  · have := h.served hq
    split <;> omega
  · rw [h.woken, returning_running hc.1, inLoop_of_ne hc.2 (by simp)]
    rfl

/-- A woken thread is back in the loop. -/
theorem Balanced.resuming {s' : SemPtr} (h : k.Balanced s n) (hr : k.cpu = .running)
    (hcur : k.currentThread ∉ k.readyList) (hpt : k.point k.currentThread = .inP s') :
    { k with woken := Function.update k.woken s' (k.woken s' - 1) }.Testing s' s n := by
  have hwoken := h.woken
  rw [returning_running hr] at hwoken
  by_cases hs : s = s'
  · subst hs
    have hloop : k.inLoop s k.currentThread = true := decide_eq_true hpt
    rw [hloop, if_pos rfl] at hwoken
    refine ⟨hr, hcur, h.value, h.nonneg, fun hq => ?_, ?_⟩
    · have := h.served hq
      simp only [Function.update_self, if_true]
      omega
    · simp only [Function.update_self]
      rw [hwoken]
      rfl
  · rw [inLoop_of_ne hpt (by simpa using Ne.symm hs)] at hwoken
    have hsame : Function.update k.woken s' (k.woken s' - 1) s = k.woken s :=
      Function.update_of_ne hs _ _
    refine ⟨hr, hcur, h.value, h.nonneg, fun hq => ?_, ?_⟩
    · have := h.served hq
      simp only [hsame]
      omega
    · simp only [hsame]
      exact hwoken

theorem Balanced.resume (h : k.Balanced s n) (hr : k.cpu = .running)
    (hcur : k.currentThread ∉ k.readyList) (hs : k.resume = .ok k') : k'.Balanced s n := by
  rcases resume_cases hs with ⟨s', hpt, ht⟩ | ⟨hpt, rfl⟩
  · exact (h.resuming hr hcur hpt).test ht
  · exact h.setPoint .code (by simp [hpt]) (by simp)

/-- The ledger of a semaphore after `V` on it, whoever was woken. -/
theorem Balanced.raise (h : k.Balanced s n)
    (hvalue : (k'.semaphore s).value = (k.semaphore s).value + 1)
    (hP : k'.completedP s = k.completedP s) (hV : k'.completedV s = k.completedV s + 1)
    (hserved : (k'.semaphore s).queue ≠ [] →
      (k.semaphore s).queue ≠ [] ∧ k'.woken s = k.woken s + 1)
    (hwoken : k'.woken s = k'.returning s) : k'.Balanced s n := by
  have hold := h.value
  have hnonneg := h.nonneg
  refine ⟨by rw [hvalue, hP, hV]; omega, by omega, fun hq => ?_, hwoken⟩
  obtain ⟨hq, hw⟩ := hserved hq
  have := h.served hq
  omega

theorem awake_append {l : List ThreadPtr} (hc : k'.cpu = k.cpu)
    (ht : k'.currentThread = k.currentThread) (hr : k'.readyList = k.readyList ++ l) :
    k'.awake = k.awake ++ l := by
  unfold awake
  rw [hc, ht, hr]
  split <;> simp

theorem Balanced.v {s' : SemPtr} (h : k.Balanced s n)
    (hhead : ∀ t rest, (k.semaphore s').queue = t :: rest → k.point t = .inP s')
    (hv : k.v s' = .ok k') : k'.Balanced s n := by
  rcases v_cases hv with ⟨-, rfl⟩ | ⟨t, rest, hq, hk⟩
  · by_cases hs : s = s'
    · subst hs
      refine h.raise ?_ rfl (Function.update_self _ _ _) (fun hq => absurd ?_ hq) h.woken
      all_goals simp [setSemaphore]
    · exact h.congr (Function.update_of_ne hs _ _) rfl (Function.update_of_ne hs _ _) rfl rfl
  · have hpt := hhead t rest hq
    have hsem : k'.semaphore = Function.update k.semaphore s'
      ⟨(k.semaphore s').value + 1, rest⟩ := by rw [hk]; rfl
    have hw : k'.woken = count k.woken s' := by rw [hk]
    have hV : k'.completedV = count k.completedV s' := by rw [hk]
    have hP : k'.completedP = k.completedP := by rw [hk]; rfl
    have hloop : k'.inLoop s = k.inLoop s := by rw [hk]; rfl
    have hawake : k'.awake = k.awake ++ [t] := by
      refine awake_append ?_ ?_ ?_ <;> rw [hk] <;> rfl
    have hreturning : k'.returning s = k.returning s + if k.inLoop s t then 1 else 0 := by
      rw [returning, hawake, hloop, List.countP_append, List.countP_singleton]
      rfl
    by_cases hs : s = s'
    · subst hs
      have hwoken : k'.woken s = k.woken s + 1 := by rw [hw]; exact Function.update_self _ _ _
      refine h.raise ?_ (by rw [hP]) ?_ (fun _ => ⟨by rw [hq]; simp, hwoken⟩) ?_
      · rw [hsem, Function.update_self]
      · rw [hV]; exact Function.update_self _ _ _
      · rw [hwoken, hreturning, h.woken, show k.inLoop s t = true from decide_eq_true hpt]
        rfl
    · refine h.congr ?_ (by rw [hP]) ?_ ?_ ?_
      · rw [hsem, Function.update_of_ne hs]
      · rw [hV]; exact Function.update_of_ne hs _ _
      · rw [hw]; exact Function.update_of_ne hs _ _
      · rw [hreturning, inLoop_of_ne hpt (by simpa using Ne.symm hs)]
        rfl

/-! ## Every event keeps the ledger -/

theorem Placed.current_notMem {place : ThreadPtr → Place} (hp : k.Placed place)
    (hc : k.OnCpu place) (hr : k.cpu = .running) : k.currentThread ∉ k.readyList :=
  hp.ready.notMem (hc.current hr) (by simp)

theorem Placed.queue_point {place : ThreadPtr → Place} {t : ThreadPtr} {rest : List ThreadPtr}
    (hp : k.Placed place) (hq : (k.semaphore s).queue = t :: rest) : k.point t = .inP s := by
  have hplace : place t = .queue s := (hp.queue s).mem_iff.mp (hq ▸ List.mem_cons_self)
  have hfits := hp.fits t
  rw [hplace] at hfits
  exact hfits.2

theorem Placed.unborn_notMem_awake {place : ThreadPtr → Place} {t : ThreadPtr}
    (hp : k.Placed place) (hc : k.OnCpu place) (hr : k.cpu = .running)
    (ht : k.life t = .unborn) : t ∉ k.awake := by
  have hplace : place t = .nowhere := hp.nowhere (by simp [ht])
  rw [awake_running hr, List.mem_cons, not_or]
  refine ⟨?_, hp.ready.notMem hplace (by simp)⟩
  rintro rfl
  rw [hc.current hr] at hplace
  cases hplace

theorem Balanced.step {e : Event} (hi : k.Inv) (h : k.Balanced s n) (hs : k.step e = .ok k') :
    k'.Balanced s n := by
  obtain ⟨place, hp, ho⟩ := hi
  cases e with
  | fork t =>
    obtain ⟨⟨hc, ht⟩, hk⟩ := ite_error_eq_ok.mp hs
    cases hk
    exact h.fork hc.1 (hp.unborn_notMem_awake ho hc.1 ht)
  | start user =>
    obtain ⟨-, hk⟩ := ite_error_eq_ok.mp hs
    exact h.start hk
  | create =>
    obtain ⟨-, hk⟩ := ite_error_eq_ok.mp hs
    exact h.create hk
  | yield =>
    obtain ⟨hc, hk⟩ := ite_error_eq_ok.mp hs
    exact h.yield hc.1 hk
  | p s' =>
    obtain ⟨hc, hk⟩ := ite_error_eq_ok.mp hs
    exact (h.testing hc (hp.current_notMem ho hc.1) s').test hk
  | resume =>
    obtain ⟨hc, hk⟩ := ite_error_eq_ok.mp hs
    exact h.resume hc (hp.current_notMem ho hc) hk
  | v s' =>
    obtain ⟨-, hk⟩ := ite_error_eq_ok.mp hs
    exact h.v (fun _ _ hq => hp.queue_point hq) hk
  | interrupt s' =>
    obtain ⟨-, hk⟩ := ite_error_eq_ok.mp hs
    exact h.v (fun _ _ hq => hp.queue_point hq) hk
  | join child =>
    obtain ⟨hc, hk⟩ := ite_error_eq_ok.mp hs
    cases hk
    exact h.join hc child
  | finish =>
    obtain ⟨hc, hk⟩ := ite_error_eq_ok.mp hs
    cases hk
    refine h.finish hc fun p hparent => ?_
    have hfits := hp.fits p
    rw [hp.parent _ p (by simp [ho.current hc.1]) hparent] at hfits
    exact hfits.2
  | idle =>
    obtain ⟨⟨hc, -⟩, hk⟩ := ite_error_eq_ok.mp hs
    cases hk
    refine h.unmoved ⟨rfl, rfl, rfl, rfl, rfl⟩ ?_
    rw [awake_asleep (by simp), awake_asleep (by simp [hc])]
  | dispatch =>
    obtain ⟨hc, hk⟩ := ite_error_eq_ok.mp hs
    exact h.dispatch hc hk

/-! ## Events of other semaphores -/

/-- A step that neither is an operation on the semaphore nor goes on with one. -/
structure Foreign (k : State) (s : SemPtr) (e : Event) : Prop where
  p : e ≠ .p s
  v : e ≠ .v s
  interrupt : e ≠ .interrupt s
  resume : e = .resume → k.point k.currentThread ≠ .inP s

/-- Neither the semaphore nor who is in its loop changes. -/
def Spared (k k' : State) (s : SemPtr) : Prop :=
  k'.semaphore s = k.semaphore s ∧ ∀ t, k'.point t = .inP s ↔ k.point t = .inP s

theorem Unmoved.spared (h : k.Unmoved k') (s : SemPtr) : k.Spared k' s :=
  ⟨by rw [h.semaphore], fun t => by rw [h.point]⟩

theorem setPoint_spared (pt : Point) (hold : k.point k.currentThread ≠ .inP s)
    (hnew : pt ≠ .inP s) : k.Spared (k.setPoint pt) s := by
  refine ⟨rfl, fun t => ?_⟩
  simp only [State.setPoint, Function.update_apply]
  split
  · rename_i ht; rw [ht]; exact iff_of_false hnew hold
  · rfl

theorem Spared.trans {k'' : State} (h : k.Spared k' s) (h' : k'.Spared k'' s) :
    k.Spared k'' s := ⟨h'.1.trans h.1, fun t => (h'.2 t).trans (h.2 t)⟩

theorem test_spared {s' : SemPtr} (ht : k.test s' = .ok k') (hs : s ≠ s')
    (hc : k.point k.currentThread ≠ .inP s) : k.Spared k' s := by
  have hset (pt : Point) (hpt : pt ≠ .inP s) := setPoint_spared pt hc hpt
  rcases test_cases ht with ⟨-, rfl⟩ | ⟨-, rfl⟩
  · exact ⟨Function.update_of_ne hs _ _, (hset (.inP s') (by simpa using hs.symm)).2⟩
  · exact ⟨Function.update_of_ne hs _ _, (hset .code (by simp)).2⟩

theorem v_spared {s' : SemPtr} (hs : s ≠ s') (hv : k.v s' = .ok k') : k.Spared k' s := by
  rcases v_cases hv with ⟨-, rfl⟩ | ⟨t, rest, -, rfl⟩
  · exact ⟨Function.update_of_ne hs _ _, fun _ => Iff.rfl⟩
  · exact ⟨Function.update_of_ne hs _ _, fun _ => Iff.rfl⟩

theorem step_spared {e : Event} (hf : k.Foreign s e)
    (hnew : ∀ t, k.life t = .unborn → k.point t ≠ .inP s) (hs : k.step e = .ok k') :
    k.Spared k' s := by
  cases e with
  | fork c =>
    obtain ⟨⟨-, hc⟩, hk⟩ := ite_error_eq_ok.mp hs
    cases hk
    refine ⟨rfl, fun t => ?_⟩
    simp only [State.fork, readyToRun, Function.update_apply]
    split
    · rename_i ht; rw [ht]; exact iff_of_false (by simp) (hnew c hc)
    · rfl
  | start user =>
    obtain ⟨-, hk⟩ := ite_error_eq_ok.mp hs
    obtain ⟨hpt, ⟨-, rfl⟩ | ⟨-, rfl⟩⟩ := start_cases hk
    · exact setPoint_spared .enabled (by simp [hpt]) (by simp)
    · exact setPoint_spared .code (by simp [hpt]) (by simp)
  | create =>
    obtain ⟨-, hk⟩ := ite_error_eq_ok.mp hs
    obtain ⟨hpt, hk⟩ := create_cases hk
    have hset := setPoint_spared (k := k) (s := s) .code (by simp [hpt]) (by simp)
    exact hset.trans ((destroyFinished_unmoved hk).1.spared s)
  | yield =>
    obtain ⟨-, hk⟩ := ite_error_eq_ok.mp hs
    rcases yield_cases hk with rfl | ⟨next, rest, -, hk⟩
    · exact ⟨rfl, fun _ => Iff.rfl⟩
    · exact (run_unmoved hk).1.spared s
  | p s' =>
    obtain ⟨hc, hk⟩ := ite_error_eq_ok.mp hs
    exact test_spared hk (by rintro rfl; exact hf.p rfl) (by simp [hc.2])
  | resume =>
    obtain ⟨-, hk⟩ := ite_error_eq_ok.mp hs
    have hcur := hf.resume rfl
    rcases resume_cases hk with ⟨s', hpt, ht⟩ | ⟨-, rfl⟩
    · have hne : s ≠ s' := by rintro rfl; exact hcur hpt
      have hspared := test_spared ht hne hcur
      exact hspared
    · exact setPoint_spared .code hcur (by simp)
  | v s' =>
    obtain ⟨-, hk⟩ := ite_error_eq_ok.mp hs
    exact v_spared (by rintro rfl; exact hf.v rfl) hk
  | interrupt s' =>
    obtain ⟨-, hk⟩ := ite_error_eq_ok.mp hs
    exact v_spared (by rintro rfl; exact hf.interrupt rfl) hk
  | join child =>
    obtain ⟨hc, hk⟩ := ite_error_eq_ok.mp hs
    cases hk
    unfold State.join
    split
    · exact ⟨rfl, (setPoint_spared .inJoin (by simp [hc.2]) (by simp)).2⟩
    · exact ⟨rfl, fun _ => Iff.rfl⟩
  | finish =>
    obtain ⟨-, hk⟩ := ite_error_eq_ok.mp hs
    cases hk
    unfold State.finish
    dsimp only
    split <;> exact ⟨rfl, fun _ => Iff.rfl⟩
  | idle =>
    obtain ⟨-, hk⟩ := ite_error_eq_ok.mp hs
    cases hk
    exact ⟨rfl, fun _ => Iff.rfl⟩
  | dispatch =>
    obtain ⟨-, hk⟩ := ite_error_eq_ok.mp hs
    obtain ⟨next, rest, -, hk⟩ := dispatch_cases hk
    exact (run_unmoved hk).1.spared s

theorem init_balanced {value : SemPtr → Int} (h : 0 ≤ value s) :
    (init value).Balanced s (value s) :=
  ⟨by simp [init], h, fun hq => absurd rfl hq, by simp [returning, awake, init, inLoop]⟩

end State

open State

/-- A semaphore admits no more than it has, and loses no wakeup. -/
theorem semaphore_balanced (value : SemPtr → Int) (s : SemPtr) (hn : 0 ≤ value s)
    {es : List Event} {k : State} (hr : Run step (init value) es k) :
    (k.semaphore s).value = value s + k.completedV s - k.completedP s ∧
    0 ≤ (k.semaphore s).value ∧
    ((k.semaphore s).queue ≠ [] → (k.semaphore s).value ≤ k.woken s) ∧
    k.woken s = k.returning s := by
  have hinv : k.Inv ∧ k.Balanced s (value s) :=
    hr.inv (I := fun k => k.Inv ∧ k.Balanced s (value s))
      (fun _ _ _ h hs => ⟨step_inv h.1 hs, h.2.step h.1 hs⟩) ⟨init_inv value, init_balanced hn⟩
  obtain ⟨-, hb⟩ := hinv
  exact ⟨hb.value, hb.nonneg, hb.served, hb.woken⟩

/-- Two threads wait and a third calls `V`; the one that is woken has not run
yet when the third takes the value back. -/
theorem semaphore_balanced_stolen : ∃ k k', Run step (init fun _ => 0)
      [.fork 1, .fork 2, .p 5, .dispatch, .start true, .create, .p 5, .dispatch, .start true,
        .create, .v 5] k ∧
    k.step (.p 5) = .ok k' ∧
    ((k.semaphore 5).queue = [1] ∧ (k.semaphore 5).value ≤ k.woken 5 ∧
      k.woken 5 = k.returning 5) ∧
    (k'.semaphore 5).value = 0 + 1 - 1 ∧ 0 ≤ (k'.semaphore 5).value := by
  have hp : continues step (init fun _ => 0)
      [.fork 1, .fork 2, .p 5, .dispatch, .start true, .create, .p 5, .dispatch, .start true,
        .create, .v 5]
      (fun k => decide ((k.semaphore 5).queue = [1]) &&
        continues step k [.p 5] fun k' =>
          decide (k'.completedP 5 = 1 ∧ k'.completedV 5 = 1)) = true := by decide
  obtain ⟨k, hr, hk⟩ := continues_iff.mp hp
  obtain ⟨hq, hk⟩ := Bool.and_eq_true_iff.mp hk
  obtain ⟨k', hr', hk'⟩ := continues_iff.mp hk
  have hq := of_decide_eq_true hq
  obtain ⟨hP, hV⟩ := of_decide_eq_true hk'
  obtain ⟨-, -, hserved, hwoken⟩ := semaphore_balanced _ 5 (Int.le_refl 0) hr
  obtain ⟨hvalue, hnonneg, -⟩ := semaphore_balanced _ 5 (Int.le_refl 0) (hr.append hr')
  rw [hP, hV] at hvalue
  exact ⟨k, k', hr, run_singleton.mp hr', ⟨hq, hserved (by simp [hq]), hwoken⟩, hvalue, hnonneg⟩

end Nachos.Synch

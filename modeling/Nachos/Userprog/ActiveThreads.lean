import Nachos.Threads.List
import Nachos.Userprog.Effects

/-! The table of active threads. `List` keeps the number of its items in a
counter of its own, and both loops over the table, that of `Thread::Finish` and
that of `getID`, take their bound from the counter; the kernel model has the
items alone. Here the counted table runs beside the kernel, together with a list
of the threads that `Exec` has made and that have not finished, and over any run
the three agree.

IDs are unbounded numbers here. The code counts them in an `int`, but every
`Finish` leaves a thread object behind ("bleh!"), so that memory ends long before
the counter does. -/

namespace Nachos
open Lib

/-! ## A list with a counter -/

/-- `List` of list.cc, with threads as its items. -/
structure Counted where
  items : List ThreadPtr
  size : Int

namespace Counted

/-- The list with its counter right. -/
def ofList (l : List ThreadPtr) : Counted := ⟨l, l.length⟩

/-- `List::Append`. -/
def append (l : Counted) (t : ThreadPtr) : Counted := ⟨l.items ++ [t], l.size + 1⟩

/-- `List::Remove`: the first item, or NULL; the counter goes down either way. -/
def remove (l : Counted) : Option ThreadPtr × Counted :=
  (l.items.head?, ⟨l.items.tail, l.size - 1⟩)

/-- The loop of `Thread::Finish`. A NULL it took off the list would go back onto
it, for `getID` to read through; the loop is given no result then. -/
def finishLoop (t : ThreadPtr) (i : Nat) (l : Counted) : Except Fault Counted :=
  if i < l.size then
    match l.remove.1 with
    | none => .error .undefined
    | some x => finishLoop t (i + 1) (if x = t then l.remove.2 else l.remove.2.append x)
  else .ok l
termination_by (l.size - i).toNat
decreasing_by
  split
  · simp only [remove]
    omega
  · simp only [remove, append]
    omega

def getIDLoop (k : Kernel) (toGet : Int) : Nat → Counted → Option ThreadPtr →
    Except Fault (Option ThreadPtr × Counted)
  | 0, l, found => .ok (found, l)
  | n + 1, l, found =>
    match l.remove.1 with
    | none => .error .undefined
    | some t =>
      let isIt := (k.thread t).map (fun T => (T.ID : Int)) = some toGet
      getIDLoop k toGet n (l.remove.2.append t) (if isIt then some t else found)

/-- `getID` of exception.cc, which reads the counter once. -/
def getID (k : Kernel) (toGet : Int) (l : Counted) : Except Fault (Option ThreadPtr × Counted) :=
  getIDLoop k toGet l.size.toNat l none

theorem append_ofList (l : List ThreadPtr) (t : ThreadPtr) :
    (ofList l).append t = ofList (l ++ [t]) := by
  simp [ofList, append]

theorem remove_cons (x : ThreadPtr) (l : List ThreadPtr) :
    (ofList (x :: l)).remove = (some x, ofList l) := by
  simp [ofList, remove]

/-- The loop ends by its bound, after as many rounds as the model's has fuel for. -/
theorem finishLoop_ofList (t : ThreadPtr) {fuel i : Nat} {l : List ThreadPtr}
    (hf : l.length - i ≤ fuel) :
    finishLoop t i (ofList l) = .ok (ofList (Kernel.removeActive t fuel i l)) := by
  induction fuel generalizing i l with
  | zero =>
    have hend : ¬ (i : Int) < (ofList l).size := by simp only [ofList]; omega
    rw [finishLoop, if_neg hend, Kernel.removeActive]
  | succ fuel ih =>
    cases l with
    | nil =>
      have hend : ¬ (i : Int) < (ofList []).size := by simp only [ofList, List.length_nil]; omega
      rw [finishLoop, if_neg hend, Kernel.removeActive]
    | cons x l =>
      rw [finishLoop, Kernel.removeActive, remove_cons]
      by_cases hi : i < (x :: l).length
      · have hgo : (i : Int) < (ofList (x :: l)).size := by simp only [ofList]; omega
        have hnext : (if x = t then ofList l else (ofList l).append x) =
            ofList (if x = t then l else l ++ [x]) := by
          rw [append_ofList]
          split <;> rfl
        have hlen : (if x = t then l else l ++ [x]).length - (i + 1) ≤ fuel := by
          rw [List.length_cons] at hf
          split
          · omega
          · rw [List.length_append, List.length_singleton]
            omega
        rw [if_pos hgo, if_pos hi]
        dsimp only
        rw [hnext, ih hlen]
      · have hend : ¬ (i : Int) < (ofList (x :: l)).size := by simp only [ofList]; omega
        rw [if_neg hend, if_neg hi]

theorem finish_ofList (t : ThreadPtr) (l : List ThreadPtr) :
    finishLoop t 0 (ofList l) = .ok (ofList (Kernel.removeActive t l.length 0 l)) :=
  finishLoop_ofList t (Nat.le_refl (l.length - 0))

theorem getIDLoop_ofList (k : Kernel) (toGet : Int) {n : Nat} {l : List ThreadPtr}
    (hn : n ≤ l.length) (found : Option ThreadPtr) :
    getIDLoop k toGet n (ofList l) found =
      .ok ((k.getIDLoop toGet n l found).1, ofList (k.getIDLoop toGet n l found).2) := by
  induction n generalizing l found with
  | zero => rw [getIDLoop, Kernel.getIDLoop]
  | succ n ih =>
    cases l with
    | nil => cases hn
    | cons t l =>
      have hlen : n ≤ (l ++ [t]).length := by
        rw [List.length_cons] at hn
        rw [List.length_append, List.length_singleton]
        omega
      rw [getIDLoop, remove_cons]
      dsimp only
      rw [append_ofList, ih hlen, Kernel.getIDLoop]

theorem getID_ofList (k : Kernel) (toGet : Int) :
    getID k toGet (ofList k.activeThreads) =
      .ok (k.activeThreads.reverse.find? (k.hasID toGet), ofList k.activeThreads) := by
  have h := getIDLoop_ofList k toGet (Nat.le_refl k.activeThreads.length) none
  have heq : k.getIDLoop toGet k.activeThreads.length k.activeThreads none = _ := k.getID_eq toGet
  rw [heq] at h
  exact h

/-! ### The elements behind it -/

/-- The list object `l`, with its elements on the heap `h`, is the list `t`. -/
def Linked (t : Counted) (l : LinkedList) (h : ListHeap ThreadPtr) : Prop :=
  ∃ cells, l.Holds h cells ∧ cells.map (fun c => c.2.2) = t.items.map some ∧
    l.size = .ofInt t.size

variable {t : Counted} {l : LinkedList} {h : ListHeap ThreadPtr}

theorem Linked.append (H : t.Linked l h) {a : Nat} (hfree : h a = none) (x : ThreadPtr) :
    ∃ h' l', l.append h a (some x) = .ok (h', l') ∧ (t.append x).Linked l' h' := by
  obtain ⟨cells, hholds, hitems, hsize⟩ := H
  obtain ⟨h', l', hcall, hcount, hturns⟩ := hholds.append_spec hfree (some x)
  refine ⟨h', l', hcall, _, hturns.holds, ?_, ?_⟩
  · rw [List.map_append, hitems, Counted.append, List.map_append]
    rfl
  · rw [hcount, hsize, Counted.append, Int32.ofInt_add]
    rfl

theorem Linked.remove (H : t.Linked l h) :
    ∃ h' l', l.remove h = .ok (t.remove.1, h', l') ∧ t.remove.2.Linked l' h' := by
  obtain ⟨cells, hholds, hitems, hsize⟩ := H
  obtain ⟨h', l', hcall, hcount, hturns⟩ := hholds.remove_spec
  have hhead : (cells.head?.bind fun c => c.2.2) = t.items.head? := by
    cases cells <;> cases hl : t.items <;> simp_all
  refine ⟨h', l', by rw [hcall, hhead]; rfl, _, hturns.holds, ?_, ?_⟩
  · rw [List.map_tail, hitems, ← List.map_tail]
    rfl
  · rw [hcount, hsize, Counted.remove, Int32.ofInt_sub]
    rfl

end Counted

/-! ## What a step does to the table -/

namespace Kernel

/-- What a step does to the active list and to the counters of threads. -/
inductive TableStep (k : Kernel) : Event → Kernel → Prop
  | same {e k'} (goes : ¬ e.Finishes) (active : k'.activeThreads = k.activeThreads)
    (next : k'.nextThread = k.nextThread) (ids : k'.threadID = k.threadID) : TableStep k e k'
  | spawn {filename junk fire k'}
    (active : k'.activeThreads = k.activeThreads ++ [k.nextThread])
    (next : k'.nextThread = k.nextThread + 1) (ids : k'.threadID = k.threadID + 1) :
    TableStep k (.exec filename junk fire) k'
  | finish {e k'} (ends : e.Finishes)
    (active : k'.activeThreads =
      removeActive k.currentThread k.activeThreads.length 0 k.activeThreads)
    (next : k'.nextThread = k.nextThread) (ids : k'.threadID = k.threadID) : TableStep k e k'

variable {k k' : Kernel} {n : Next} {e : Event}

theorem act_finishes (he : e.Finishes) (h : k.act e = .ok (k', n)) :
    ∃ r, { k with registers := r }.terminate = .ok k' := by
  cases acts_of_act h with
  | exit _ h1 => exact ⟨k.registers, h1⟩
  | fatal _ h1 => exact ⟨_, h1⟩
  | _ => cases he

theorem step_tableStep (hi : k.Inv) (h : k.step e = .ok k') : k.TableStep e k' := by
  obtain ⟨⟨k1, n⟩, hact, h⟩ := bind_eq_ok.mp h
  have hrest := (dispatch_frame h).1
  have hactive : k'.activeThreads = k1.activeThreads := (congrArg activeThreads hrest :)
  have hnext : k'.nextThread = k1.nextThread := (congrArg nextThread hrest :)
  have hids : k'.threadID = k1.threadID := (congrArg Kernel.threadID hrest :)
  by_cases he : e.Finishes
  · obtain ⟨r, ht⟩ := act_finishes he hact
    obtain ⟨T, hT, -⟩ := hi.running
    obtain ⟨s, hs, -⟩ := hi.procs.space hT
    obtain ⟨_, _, _, -, -, hk1⟩ :=
      terminate_eq_ok (k := { k with registers := r }) (live_eq_some hT).2 hs ht
    exact .finish he (hactive.trans (congrArg activeThreads hk1 :))
      (hnext.trans (congrArg nextThread hk1 :)) (hids.trans (congrArg Kernel.threadID hk1 :))
  · cases act_acted hi hact with
    | moved hl =>
      exact .same he (hactive.trans (congrArg activeThreads hl.rest :))
        (hnext.trans (congrArg nextThread hl.rest :))
        (hids.trans (congrArg Kernel.threadID hl.rest :))
    | built hopens hnew =>
      obtain ⟨hs, -⟩ := exec_spawned (r := BitVec.ofNat 32 k.threadID) hnew
      exact .spawn (hactive.trans hs.active) (hnext.trans hs.nextThread)
        (hids.trans hs.threadID)
    | joined => exact .same he hactive hnext hids
    | ended hends => exact absurd hends he
    | created hc =>
      obtain ⟨_, _, -, -, hk, -⟩ := create_eq_ok hc
      exact .same he (hactive.trans (congrArg activeThreads hk :))
        (hnext.trans (congrArg nextThread hk :)) (hids.trans (congrArg Kernel.threadID hk :))

/-- Only `Exec` counts `threadID` up. -/
theorem run_threadID {es : List Event} (hi : k.Inv) (h : Run step k es k') :
    k'.threadID ≤ k.threadID + es.length := by
  induction es generalizing k with
  | nil =>
    cases h
    exact Nat.le_refl _
  | cons e es ih =>
    cases h with
    | cons hs hr =>
      have hrest := ih (step_inv hi hs) hr
      rw [List.length_cons]
      cases step_tableStep hi hs with
      | same _ _ _ hids => omega
      | spawn _ _ hids => omega
      | finish _ _ _ hids => omega

/-- A live thread was live before the step and has kept its ID, or it is the new
one, with the next ID. -/
theorem step_ids (hi : k.Inv) (h : k.step e = .ok k') {t : ThreadPtr} {T' : Thread}
    (ht : k'.live t = some T') :
    (∃ T, k.live t = some T ∧ T.ID = T'.ID) ∨ t = k.nextThread ∧ T'.ID = k.threadID := by
  cases step_procStep hi h with
  | same hl => exact .inl ⟨T', by rw [← hl]; exact ht, rfl⟩
  | spawn hl =>
    rw [hl] at ht
    split at ht
    · cases ht
      exact .inr ⟨‹_›, rfl⟩
    · exact .inl ⟨T', ht, rfl⟩
  | join _ hl =>
    rw [hl] at ht
    obtain ⟨T, hT, hT'⟩ := Option.map_eq_some_iff.mp ht
    exact .inl ⟨T, hT, by rw [← hT']; rfl⟩
  | finish _ _ hl =>
    rw [hl] at ht
    split at ht
    · cases ht
    · obtain ⟨T, hT, hT'⟩ := Option.map_eq_some_iff.mp ht
      refine .inl ⟨T, hT, ?_⟩
      rw [← hT', wakeEffect]
      split <;> rfl

end Kernel

/-! ## The table over a run -/

/-- The kernel, its table of active threads with the counter, and the threads
that `Exec` has made and that have not finished. -/
structure Roster where
  kernel : Kernel
  table : Counted
  unfinished : List ThreadPtr

namespace Roster

def start (k : Kernel) : Roster := ⟨k, .ofList [], []⟩

/-- One event, with what its code does to the table. -/
def step (r : Roster) (e : Event) : Except Fault Roster := do
  let k ← r.kernel.step e
  match e with
  | .exec _ _ _ =>
    -- the file may not have opened
    if k.nextThread = r.kernel.nextThread then .ok { r with kernel := k }
    else
      .ok ⟨k, r.table.append r.kernel.nextThread, r.unfinished ++ [r.kernel.nextThread]⟩
  | .join =>
    if (r.kernel.registers 4).toInt < 0 then .ok { r with kernel := k }
    else do
      let (_, table) ← r.table.getID r.kernel (r.kernel.registers 4).toInt
      .ok { r with kernel := k, table := table }
  | .exit | .fatal _ _ => do
    let table ← r.table.finishLoop r.kernel.currentThread 0
    .ok ⟨k, table, r.unfinished.filter (· ≠ r.kernel.currentThread)⟩
  | _ => .ok { r with kernel := k }

structure Inv (r : Roster) : Prop where
  kernel : r.kernel.Inv
  table : r.table = .ofList r.kernel.activeThreads
  exact : r.kernel.activeThreads.Perm r.unfinished
  next : 0 < r.kernel.nextThread
  main : 0 ∉ r.kernel.activeThreads
  threadID : 0 < r.kernel.threadID
  ids : ∀ {t T}, r.kernel.live t = some T → t ≠ 0 → 0 < T.ID

variable {r : Roster} {e : Event} {k' : Kernel}

theorem step_of_finishes (he : e.Finishes) (h : r.kernel.step e = .ok k') (hI : r.Inv) :
    r.step e = .ok ⟨k', .ofList (Kernel.removeActive r.kernel.currentThread
      r.kernel.activeThreads.length 0 r.kernel.activeThreads),
      r.unfinished.filter (· ≠ r.kernel.currentThread)⟩ := by
  have hloop := Counted.finish_ofList r.kernel.currentThread r.kernel.activeThreads
  rw [← hI.table] at hloop
  unfold step
  rw [h, ok_bind]
  cases e with
  | exit => dsimp only; rw [hloop, ok_bind]
  | fatal addr merged => dsimp only; rw [hloop, ok_bind]
  | _ => cases he

theorem step_of_same (he : ¬ e.Finishes) (h : r.kernel.step e = .ok k')
    (hnext : k'.nextThread = r.kernel.nextThread) (hI : r.Inv) :
    r.step e = .ok { r with kernel := k' } := by
  unfold step
  rw [h, ok_bind]
  cases e with
  | exec filename junk fire => exact if_pos hnext
  | join =>
    dsimp only
    split
    · rfl
    · rw [hI.table, Counted.getID_ofList, ok_bind]
  | exit => exact absurd trivial he
  | fatal addr merged => exact absurd trivial he
  | _ => rfl

theorem step_inv (hI : r.Inv) (h : r.kernel.step e = .ok k') :
    ∃ r', r.step e = .ok r' ∧ r'.kernel = k' ∧ r'.Inv := by
  have hk' : k'.Inv := Kernel.step_inv hI.kernel h
  have hids {t : ThreadPtr} {T' : Thread} (ht : k'.live t = some T') (h0 : t ≠ 0) :
      0 < T'.ID := by
    rcases Kernel.step_ids hI.kernel h ht with ⟨T, hT, hid⟩ | ⟨-, hid⟩
    · exact hid ▸ hI.ids hT h0
    · exact hid ▸ hI.threadID
  cases Kernel.step_tableStep hI.kernel h with
  | same he hactive hnext hthreadID =>
    refine ⟨_, step_of_same he h hnext hI, rfl, hk', ?_, ?_, ?_, ?_, ?_, hids⟩
    · exact hI.table.trans (by rw [hactive])
    · exact hactive ▸ hI.exact
    · exact hnext ▸ hI.next
    · exact hactive ▸ hI.main
    · exact hthreadID ▸ hI.threadID
  | spawn hactive hnext hthreadID =>
    have hne : k'.nextThread ≠ r.kernel.nextThread := hnext ▸ Nat.succ_ne_self _
    refine ⟨⟨k', r.table.append r.kernel.nextThread, r.unfinished ++ [r.kernel.nextThread]⟩,
      ?_, rfl, hk', ?_, ?_, ?_, ?_, ?_, hids⟩
    · unfold step
      rw [h, ok_bind]
      exact if_neg hne
    · dsimp only
      rw [hI.table, Counted.append_ofList, hactive]
    · dsimp only
      rw [hactive]
      exact hI.exact.append_right _
    · dsimp only
      rw [hnext]
      exact Nat.succ_pos _
    · dsimp only
      rw [hactive, List.mem_append, List.mem_singleton, not_or]
      exact ⟨hI.main, Nat.ne_of_lt hI.next⟩
    · dsimp only
      omega
  | finish he hactive hnext hthreadID =>
    have hperm := Kernel.removeActive_perm (t := r.kernel.currentThread) hI.kernel.procs.nodup
    rw [← hactive] at hperm
    refine ⟨_, step_of_finishes he h hI, rfl, hk', ?_, ?_, ?_, ?_, ?_, hids⟩
    · dsimp only
      rw [hactive]
    · exact hperm.trans (hI.exact.filter _)
    · exact hnext ▸ hI.next
    · intro h0
      exact hI.main (List.mem_of_mem_filter (hperm.mem_iff.mp h0))
    · exact hthreadID ▸ hI.threadID

theorem start_inv {c : Config} {k : Kernel} (h : boot c = .ok k) : (start k).Inv := by
  obtain ⟨x, numPages, -, -, hk⟩ := boot_eq_ok h
  have hactive : k.activeThreads = [] := (congrArg Kernel.activeThreads hk :)
  have hnext : k.nextThread = 1 := (congrArg Kernel.nextThread hk :)
  have hthreadID : k.threadID = 1 := (congrArg Kernel.threadID hk :)
  refine ⟨boot_inv h, ?_, ?_, ?_, ?_, ?_, ?_⟩
  · exact congrArg Counted.ofList hactive.symm
  · exact hactive ▸ List.Perm.refl _
  · exact hnext ▸ Nat.one_pos
  · exact hactive ▸ List.not_mem_nil
  · exact hthreadID ▸ Nat.one_pos
  · intro t T ht h0
    have hthread : k.thread t = some T := (Kernel.live_eq_some ht).2
    rw [hk] at hthread
    simp only [Function.update_of_ne h0] at hthread
    cases hthread

theorem run_inv {k : Kernel} {es : List Event} (hI : r.Inv) (h : Run Kernel.step r.kernel es k) :
    ∃ r', Run step r es r' ∧ r'.kernel = k ∧ r'.Inv := by
  induction es generalizing r with
  | nil => cases h; exact ⟨r, .nil, rfl, hI⟩
  | cons e es ih =>
    cases h with
    | cons hs hr =>
      obtain ⟨r₁, hstep, rfl, hI₁⟩ := step_inv hI hs
      obtain ⟨r', hrun, hk, hI'⟩ := ih hI₁ hr
      exact ⟨r', .cons hstep hrun, hk, hI'⟩

end Roster

/-- Over every run, the table of active threads has each thread that `Exec` has
made and that has not finished, once, and no other; its counter is right; IDs are
positive, belong to one thread and are not larger than the number of events, so
that they are an `int` as long as this is; `getID` finds the thread with an ID if
there is one and leaves the table as it is; and `Finish` takes out the thread it is
for, the main thread not being in the table. -/
theorem active_table_exact {c : Config} {k0 k : Kernel} {es : List Event}
    (hboot : boot c = .ok k0) (hrun : Run Kernel.step k0 es k) :
    ∃ r, Run Roster.step (.start k0) es r ∧ r.kernel = k ∧
      r.table = .ofList k.activeThreads ∧ k.activeThreads.Nodup ∧
      (∀ t, t ∈ k.activeThreads ↔ t ∈ r.unfinished) ∧ 0 ∉ k.activeThreads ∧
      (∀ t ∈ k.activeThreads, ∃ T, k.thread t = some T ∧ 0 < T.ID ∧ T.ID ≤ es.length ∧
        ∀ t' ∈ k.activeThreads, ∀ T', k.thread t' = some T' → T'.ID = T.ID → t' = t) ∧
      (∀ n, ∃ found, r.table.getID k n = .ok (found, r.table) ∧
        ∀ t, found = some t ↔ t ∈ k.activeThreads ∧ k.hasID n t = true) ∧
      ∀ t, ∃ l, r.table.finishLoop t 0 = .ok (.ofList l) ∧
        l.Perm (k.activeThreads.filter (· ≠ t)) := by
  obtain ⟨r, hr, rfl, hI⟩ := Roster.run_inv (Roster.start_inv hboot) hrun
  have hprocs := hI.kernel.procs
  refine ⟨r, hr, rfl, hI.table, hprocs.nodup, fun t => hI.exact.mem_iff, hI.main,
    fun t ht => ?_, fun n => ?_, fun t => ?_⟩
  · obtain ⟨T, hT⟩ := Option.isSome_iff_exists.mp (hprocs.active t ht)
    have hlt := hprocs.idLt hT
    have hfirst : k0.threadID = 1 := by
      obtain ⟨x, numPages, -, -, hk0⟩ := boot_eq_ok hboot
      exact (congrArg Kernel.threadID hk0 :)
    have hcount := Kernel.run_threadID (boot_inv hboot) hrun
    refine ⟨T, (Kernel.live_eq_some hT).2, hI.ids hT fun h0 => hI.main (h0 ▸ ht), by omega, ?_⟩
    intro t' ht' T' hT' hid
    obtain ⟨T'', hT''⟩ := Option.isSome_iff_exists.mp (hprocs.active t' ht')
    obtain rfl : T'' = T' := Option.some.inj ((Kernel.live_eq_some hT'').2.symm.trans hT')
    exact hprocs.idInj hT'' hT hid
  · exact ⟨_, by rw [hI.table]; exact Counted.getID_ofList r.kernel n,
      hprocs.find_hasID_iff n⟩
  · refine ⟨_, ?_, Kernel.removeActive_perm hprocs.nodup⟩
    rw [hI.table]
    exact Counted.finish_ofList t r.kernel.activeThreads

/-- Two processes are started; the second is found by its ID, and is what `Finish`
of the first leaves. -/
theorem active_table_exact_two : ∃ (k0 k : Kernel) (r : Roster),
    boot (Config.sample 1) = .ok k0 ∧ Run Kernel.step k0 (execSample ++ execSample) k ∧
      Run Roster.step (.start k0) (execSample ++ execSample) r ∧
      r.table.getID k 2 = .ok (some 2, r.table) ∧ r.table.finishLoop 1 0 = .ok (.ofList [2]) := by
  have hdemo : (Config.sample 1).reaches (execSample ++ execSample) (fun k =>
      decide (k.activeThreads = [1, 2]) && k.hasID 2 2) = true := by
    decide +kernel
  obtain ⟨k0, k, hboot, hrun, hp⟩ := Config.reaches_iff.mp hdemo
  rw [Bool.and_eq_true, decide_eq_true_eq] at hp
  obtain ⟨r, hr, -, -, -, -, -, -, hget, hfinish⟩ := active_table_exact hboot hrun
  refine ⟨k0, k, r, hboot, hrun, hr, ?_, ?_⟩
  · obtain ⟨found, hfound, hiff⟩ := hget 2
    rw [hfound, (hiff 2).mpr ⟨by rw [hp.1]; decide, hp.2⟩]
  · obtain ⟨l, hl, hperm⟩ := hfinish 1
    rw [hp.1] at hperm
    rw [hl, List.perm_singleton.mp hperm]

end Nachos

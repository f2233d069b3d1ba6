import Nachos.Threads.Dispatch
import Nachos.Userprog.Paging

/-! Threads, their address spaces and who waits for whom. `Processes` collects
what holds of the live threads between any two stretches of kernel code;
everything a context switch or a paging operation does leaves it alone
(`SameProcesses`), so that only `Exec`, `Join` and termination have to be looked
at. -/

namespace Nachos
open Lib

namespace Kernel

/-! ## The active list -/

theorem removeActive_of_not_mem {t : ThreadPtr} {fuel i : Nat} {l : List ThreadPtr}
    (h : t ∉ l) : (removeActive t fuel i l).Perm l := by
  induction fuel generalizing i l with
  | zero => cases l <;> exact .refl _
  | succ fuel ih =>
    cases l with
    | nil => exact .refl _
    | cons x l =>
      obtain ⟨hx, hl⟩ : t ≠ x ∧ t ∉ l := by simpa using h
      unfold removeActive
      split
      · rw [if_neg (Ne.symm hx)]
        exact (ih (by simp [hl, hx])).trans (List.perm_append_singleton x l)
      · exact .refl _

/-- The loop of `Thread::Finish`, some rounds in: the threads of `b` have been
looked at and put back, those of `a` are still to come. -/
theorem removeActive_loop {t : ThreadPtr} {a b : List ThreadPtr} {fuel : Nat}
    (hn : a.Nodup) (hb : t ∉ b) (hf : a.length ≤ fuel) :
    (removeActive t fuel b.length (a ++ b)).Perm ((a ++ b).filter (· ≠ t)) := by
  have hkeep (l : List ThreadPtr) (hl : t ∉ l) : l.filter (· ≠ t) = l := by
    refine List.filter_eq_self.mpr fun x hx => decide_eq_true ?_
    rintro rfl
    exact hl hx
  induction a generalizing b fuel with
  | nil =>
    rw [List.nil_append, hkeep b hb]
    exact removeActive_of_not_mem hb
  | cons x a ih =>
    obtain ⟨hxa, hna⟩ := List.nodup_cons.mp hn
    obtain ⟨fuel, rfl⟩ : ∃ n, fuel = n + 1 := ⟨fuel - 1, by simp at hf; omega⟩
    have hlt : b.length < (x :: (a ++ b)).length := by
      rw [List.length_cons, List.length_append]
      omega
    rw [List.cons_append, removeActive, if_pos hlt]
    by_cases hx : x = t
    · have hrest : t ∉ a ++ b := by
        simp only [List.mem_append, not_or]
        exact ⟨hx ▸ hxa, hb⟩
      rw [if_pos hx, List.filter_cons_of_neg (by simp [hx]), hkeep _ hrest]
      exact removeActive_of_not_mem hrest
    · have hlen : b.length + 1 = (b ++ [x]).length := by simp
      rw [if_neg hx, List.append_assoc, hlen]
      refine (ih hna (by simp [hb, Ne.symm hx]) (by simpa using hf)).trans ?_
      rw [← List.append_assoc]
      exact (List.perm_append_singleton x (a ++ b)).filter _

theorem removeActive_perm {t : ThreadPtr} {l : List ThreadPtr} (hn : l.Nodup) :
    (removeActive t l.length 0 l).Perm (l.filter (· ≠ t)) := by
  have := removeActive_loop (b := []) hn (List.not_mem_nil (a := t)) (Nat.le_refl l.length)
  simpa using this

def hasID (k : Kernel) (id : Int) (t : ThreadPtr) : Bool :=
  (k.thread t).map (fun T => (T.ID : Int)) = some id

theorem getIDLoop_eq (k : Kernel) (id : Int) (a b : List ThreadPtr) (found : Option ThreadPtr) :
    k.getIDLoop id a.length (a ++ b) found =
      ((a.reverse.find? (k.hasID id)).or found, b ++ a) := by
  induction a generalizing b found with
  | nil => simp [getIDLoop]
  | cons t a ih =>
    rw [List.length_cons, List.cons_append, getIDLoop, List.append_assoc, ih,
      List.reverse_cons, List.find?_append]
    refine Prod.ext ?_ (by simp)
    cases h : a.reverse.find? (k.hasID id) with
    | some c => rfl
    | none => by_cases ht : k.hasID id t <;> simp_all [hasID]

/-- `getID` finds the last thread of the active list with the ID, and leaves
the list as it was. -/
theorem getID_eq (k : Kernel) (id : Int) :
    k.getID id = (k.activeThreads.reverse.find? (k.hasID id), k.activeThreads) := by
  have := k.getIDLoop_eq id k.activeThreads [] none
  simpa [getID] using this

/-! ## The invariant -/

/-- No two live threads share an ID or a space; nobody is told to kill a child. -/
structure Identities (k : Kernel) : Prop where
  spaceInj : ∀ {t t' T T' s}, k.live t = some T → k.live t' = some T' →
    T.space = some s → T'.space = some s → t = t'
  idLt : ∀ {t T}, k.live t = some T → T.ID < k.threadID
  idInj : ∀ {t t' T T'}, k.live t = some T → k.live t' = some T' → T.ID = T'.ID → t = t'
  kill : ∀ {t T}, k.live t = some T → T.killNewChild = false

structure Processes (k : Kernel) : Prop extends Identities k where
  fresh : ∀ t, k.nextThread ≤ t → k.thread t = none
  dying : ∀ x, k.threadToBeDestroyed = some x → (k.thread x).isSome
  parent : ∀ {c C p}, k.live c = some C → C.parent = some p →
    ∃ P, k.live p = some P ∧ P.isJoined = true
  onlyChild : ∀ {c c' C C' p}, k.live c = some C → k.live c' = some C' →
    C.parent = some p → C'.parent = some p → c = c'
  space : ∀ {t T}, k.live t = some T → ∃ s, T.space = some s ∧ (k.space s).isSome
  owner : ∀ {s}, (k.space s).isSome → ∃ t T, k.live t = some T ∧ T.space = some s
  freshSpace : ∀ s, k.nextSpace ≤ s → k.space s = none
  active : ∀ t ∈ k.activeThreads, (k.live t).isSome
  nodup : k.activeThreads.Nodup

/-- The live threads, the active list and which spaces there are stay the same. -/
structure SameProcesses (k k' : Kernel) : Prop where
  live : k'.live = k.live
  freed : ∀ t, k.thread t = none → k'.thread t = none
  dying : k'.threadToBeDestroyed = none ∨
    k'.thread = k.thread ∧ k'.threadToBeDestroyed = k.threadToBeDestroyed
  nextThread : k'.nextThread = k.nextThread
  active : k'.activeThreads = k.activeThreads
  threadID : k'.threadID = k.threadID
  nextSpace : k'.nextSpace = k.nextSpace
  spaces : ∀ s, (k'.space s).isSome = (k.space s).isSome

variable {k k' : Kernel}

theorem SameProcesses.of_eq (ht : k'.thread = k.thread)
    (hd : k'.threadToBeDestroyed = k.threadToBeDestroyed) (hn : k'.nextThread = k.nextThread)
    (ha : k'.activeThreads = k.activeThreads) (hi : k'.threadID = k.threadID)
    (hm : k'.nextSpace = k.nextSpace) (hs : ∀ s, (k'.space s).isSome = (k.space s).isSome) :
    SameProcesses k k' := by
  refine ⟨?_, fun t h => by rw [ht, h], .inr ⟨ht, hd⟩, hn, ha, hi, hm, hs⟩
  funext t
  unfold Kernel.live
  rw [hd, ht]

theorem MemoryOnly.sameProcesses (h : MemoryOnly k k') : SameProcesses k k' :=
  .of_eq (congrArg Kernel.thread h.rest :) (congrArg threadToBeDestroyed h.rest :)
    (congrArg Kernel.nextThread h.rest :) (congrArg activeThreads h.rest :)
    (congrArg Kernel.threadID h.rest :) (congrArg Kernel.nextSpace h.rest :) h.isSome

theorem dispatch_sameProcesses {n : Next} (h : k.dispatch n = .ok k') : SameProcesses k k' := by
  obtain ⟨hrest, hlive, hfreed⟩ := dispatch_frame h
  refine ⟨hlive, hfreed, ?_, (congrArg Kernel.nextThread hrest :),
    (congrArg activeThreads hrest :), (congrArg Kernel.threadID hrest :),
    (congrArg Kernel.nextSpace hrest :), fun s => by
      rw [show k'.space = k.space from (congrArg Kernel.space hrest :)]⟩
  rcases dispatch_cases h with ⟨-, rfl | ⟨-, rfl⟩⟩ | ⟨next, _, _, _, _, _, hs⟩
  · exact .inr ⟨rfl, rfl⟩
  · exact .inr ⟨rfl, rfl⟩
  · by_cases hroot : k.cont next = .threadRoot
    · obtain ⟨ht, hd, -⟩ := hs.fresh hroot
      exact .inr ⟨ht, hd⟩
    · exact .inl (hs.resumed hroot).1

/-- Threads may go, but those that stay keep their ID and their space. -/
theorem Identities.kept (hi : k.Identities) (hid : k'.threadID = k.threadID)
    (h : ∀ {t T'}, k'.live t = some T' → ∃ T, k.live t = some T ∧ T'.ID = T.ID ∧
      T'.space = T.space ∧ T'.killNewChild = T.killNewChild) : k'.Identities := by
  constructor
  case spaceInj =>
    intro t t' T T' s ht ht' hs hs'
    obtain ⟨U, hU, -, hUs, -⟩ := h ht
    obtain ⟨U', hU', -, hUs', -⟩ := h ht'
    exact hi.spaceInj hU hU' (hUs ▸ hs) (hUs' ▸ hs')
  case idLt =>
    intro t T ht
    obtain ⟨U, hU, hUi, -⟩ := h ht
    rw [hUi, hid]
    exact hi.idLt hU
  case idInj =>
    intro t t' T T' ht ht' he
    obtain ⟨U, hU, hUi, -⟩ := h ht
    obtain ⟨U', hU', hUi', -⟩ := h ht'
    rw [hUi, hUi'] at he
    exact hi.idInj hU hU' he
  case kill =>
    intro t T ht
    obtain ⟨U, hU, -, -, hUk⟩ := h ht
    rw [hUk]
    exact hi.kill hU

theorem Processes.transfer (hp : k.Processes) (h : SameProcesses k k') : k'.Processes where
  toIdentities := hp.toIdentities.kept h.threadID fun {t T'} ht =>
    ⟨T', by rw [← h.live]; exact ht, rfl, rfl, rfl⟩
  fresh t ht := h.freed t (hp.fresh t (by rw [← h.nextThread]; exact ht))
  dying x hx := by
    rcases h.dying with hn | ⟨ht, hd⟩
    · rw [hn] at hx; cases hx
    · rw [ht]; exact hp.dying x (hd ▸ hx)
  parent := by rw [h.live]; exact hp.parent
  onlyChild := by rw [h.live]; exact hp.onlyChild
  space := by simp only [h.live, h.spaces]; exact hp.space
  owner := by simp only [h.live, h.spaces]; exact hp.owner
  freshSpace s hs := by
    have := h.spaces s
    rw [hp.freshSpace s (h.nextSpace ▸ hs)] at this
    simpa using this
  active := by rw [h.live, h.active]; exact hp.active
  nodup := by rw [h.active]; exact hp.nodup

/-! ## Exec -/

theorem createFile_eq (k : Kernel) (name : FileName) : ∃ dir data i,
    k.createFile name = { k with hostDir := dir, hostData := data, nextInode := i } := by
  unfold createFile
  split <;> exact ⟨_, _, _, rfl⟩

theorem newAddrSpace_eq_ok {x : NoffFile} {junk : Nat → Bool} {s : SpacePtr}
    (h : k.newAddrSpace x junk = .ok (s, k')) :
    ∃ T numPages i, k.thread k.currentThread = some T ∧ s = k.nextSpace ∧
      pagesNeeded (NoffHeader.decode x.bytes) = .ok numPages ∧
      (k.createFile (swapName T.ID)).hostDir (swapName T.ID) = some i ∧
      k' = { k with
        space := Function.update k.space k.nextSpace
          (some (.new x numPages junk i (swapName T.ID)))
        nextSpace := k.nextSpace + 1
        hostDir := (k.createFile (swapName T.ID)).hostDir
        hostData := (k.createFile (swapName T.ID)).hostData
        nextInode := (k.createFile (swapName T.ID)).nextInode } := by
  unfold newAddrSpace at h
  split at h
  · cases h
  · rename_i T hT
    obtain ⟨numPages, hn, h⟩ := bind_eq_ok.mp h
    dsimp only at h
    split at h
    · cases h
    · rename_i i hi
      cases h
      refine ⟨T, numPages, i, hT, ?_⟩
      obtain ⟨d, data, j, hc⟩ := k.createFile_eq (swapName T.ID)
      generalize k.createFile (swapName T.ID) = k1 at *
      subst hc
      exact ⟨rfl, hn, hi, rfl⟩

theorem Processes.live_nextThread (hp : k.Processes) : k.live k.nextThread = none := by
  unfold live
  rw [hp.fresh _ (Nat.le_refl _)]
  split <;> rfl

theorem Processes.live_ne (hp : k.Processes) {t : ThreadPtr} {T : Thread}
    (h : k.live t = some T) : t ≠ k.nextThread := by
  rintro rfl
  rw [hp.live_nextThread] at h
  cases h

theorem Processes.space_ne_next (hp : k.Processes) {t : ThreadPtr} {T : Thread}
    (h : k.live t = some T) : T.space ≠ some k.nextSpace := by
  intro he
  obtain ⟨s, hsp, hsome⟩ := hp.space h
  rw [he] at hsp
  cases hsp
  rw [hp.freshSpace _ (Nat.le_refl _)] at hsome
  cases hsome

/-- Only a thread that waits is a parent. -/
theorem Processes.parent_ne (hp : k.Processes) {t c : ThreadPtr} {T C : Thread}
    (ht : k.live t = some T) (hj : T.isJoined = false) (hc : k.live c = some C) :
    C.parent ≠ some t := by
  intro hpar
  obtain ⟨P, hP, hPj⟩ := hp.parent hc hpar
  rw [ht] at hP
  cases hP
  rw [hj] at hPj
  cases hPj

/-- On the active list an ID belongs to one thread. -/
theorem Processes.find_hasID_iff (hp : k.Processes) (id : Int) (t : ThreadPtr) :
    k.activeThreads.reverse.find? (k.hasID id) = some t ↔
      t ∈ k.activeThreads ∧ k.hasID id t = true := by
  constructor
  · intro hfind
    exact ⟨by simpa using List.mem_of_find?_eq_some hfind, List.find?_some hfind⟩
  · intro ⟨ht, hid⟩
    cases hfind : k.activeThreads.reverse.find? (k.hasID id) with
    | none =>
      have hno := List.find?_eq_none.mp hfind t (List.mem_reverse.mpr ht)
      exact absurd hid hno
    | some t' =>
      have ht' : t' ∈ k.activeThreads := by simpa using List.mem_of_find?_eq_some hfind
      have hid' : k.hasID id t' = true := List.find?_some hfind
      obtain ⟨T, hT⟩ := Option.isSome_iff_exists.mp (hp.active t ht)
      obtain ⟨T', hT'⟩ := Option.isSome_iff_exists.mp (hp.active t' ht')
      refine congrArg some (hp.idInj hT' hT ?_)
      unfold hasID at hid hid'
      rw [(live_eq_some hT).2] at hid
      rw [(live_eq_some hT').2] at hid'
      simp only [Option.map_some, Option.some.injEq, decide_eq_true_eq] at hid hid'
      omega

/-- The thread that `SC_Exec` makes, in the space just built. -/
def child (k : Kernel) : Thread := ⟨k.threadID, none, false, false, some k.nextSpace⟩

/-- What `SC_Exec` adds: one thread, one space, one entry of the active list. -/
structure Spawned (k k' : Kernel) : Prop where
  thread : k'.thread = Function.update k.thread k.nextThread (some k.child)
  dying : k'.threadToBeDestroyed = k.threadToBeDestroyed
  nextThread : k'.nextThread = k.nextThread + 1
  active : k'.activeThreads = k.activeThreads ++ [k.nextThread]
  threadID : k'.threadID = k.threadID + 1
  nextSpace : k'.nextSpace = k.nextSpace + 1
  spaces : ∃ S, k'.space = Function.update k.space k.nextSpace (some S)

theorem Spawned.live (hs : Spawned k k') (hp : k.Processes) (t : ThreadPtr) :
    k'.live t = if t = k.nextThread then some k.child else k.live t := by
  unfold Kernel.live
  rw [hs.dying, hs.thread, Function.update_apply]
  by_cases hd : k.threadToBeDestroyed = some t
  · have hne : t ≠ k.nextThread := by
      rintro rfl
      have := hp.dying _ hd
      rw [hp.fresh _ (Nat.le_refl _)] at this
      cases this
    rw [if_pos hd, if_pos hd, if_neg hne]
  · rw [if_neg hd, if_neg hd]

theorem Spawned.isSome (hs : Spawned k k') (s : SpacePtr) :
    (k'.space s).isSome ↔ s = k.nextSpace ∨ (k.space s).isSome := by
  obtain ⟨S, hS⟩ := hs.spaces
  rw [hS, Function.update_apply]
  by_cases h : s = k.nextSpace <;> simp [h]

theorem Processes.spawned (hp : k.Processes) (hs : Spawned k k') : k'.Processes := by
  -- a live thread of the new state is the new one or an old one
  have hcases {t : ThreadPtr} {T : Thread} (h : k'.live t = some T) :
      t = k.nextThread ∧ T = k.child ∨ t ≠ k.nextThread ∧ k.live t = some T := by
    rw [hs.live hp] at h
    split at h
    · cases h; exact .inl ⟨‹_›, rfl⟩
    · exact .inr ⟨‹_›, h⟩
  have hold {t : ThreadPtr} {T : Thread} (h : k.live t = some T) : k'.live t = some T := by
    rw [hs.live hp, if_neg (hp.live_ne h), h]
  refine ⟨⟨?spaceInj, ?idLt, ?idInj, ?kill⟩, ?fresh, ?dying, ?parent, ?onlyChild, ?space,
    ?owner, ?freshSpace, ?active, ?nodup⟩
  case fresh =>
    intro t ht
    rw [hs.nextThread] at ht
    rw [hs.thread, Function.update_of_ne (Nat.ne_of_gt ht), hp.fresh t (Nat.le_of_succ_le ht)]
  case dying =>
    intro x hx
    rw [hs.thread, Function.update_apply]
    split
    · rfl
    · exact hp.dying x (hs.dying ▸ hx)
  case parent =>
    intro c C p hc hpar
    rcases hcases hc with ⟨-, rfl⟩ | ⟨-, hc⟩
    · cases hpar
    · obtain ⟨P, hP, hj⟩ := hp.parent hc hpar
      exact ⟨P, hold hP, hj⟩
  case onlyChild =>
    intro c c' C C' p hc hc' hpar hpar'
    rcases hcases hc with ⟨-, rfl⟩ | ⟨-, hc⟩
    · cases hpar
    · rcases hcases hc' with ⟨-, rfl⟩ | ⟨-, hc'⟩
      · cases hpar'
      · exact hp.onlyChild hc hc' hpar hpar'
  case space =>
    intro t T h
    rcases hcases h with ⟨-, rfl⟩ | ⟨-, h⟩
    · exact ⟨k.nextSpace, rfl, (hs.isSome _).mpr (.inl rfl)⟩
    · obtain ⟨s, hsp, hsome⟩ := hp.space h
      exact ⟨s, hsp, (hs.isSome s).mpr (.inr hsome)⟩
  case spaceInj =>
    intro t t' T T' s h h' hsp hsp'
    rcases hcases h with ⟨ht, rfl⟩ | ⟨-, h⟩ <;> rcases hcases h' with ⟨ht', rfl⟩ | ⟨-, h'⟩
    · rw [ht, ht']
    · cases hsp; exact absurd hsp' (hp.space_ne_next h')
    · cases hsp'; exact absurd hsp (hp.space_ne_next h)
    · exact hp.spaceInj h h' hsp hsp'
  case owner =>
    intro s hsome
    rcases (hs.isSome s).mp hsome with rfl | hsome
    · exact ⟨k.nextThread, k.child, by rw [hs.live hp, if_pos rfl], rfl⟩
    · obtain ⟨t, T, h, hsp⟩ := hp.owner hsome
      exact ⟨t, T, hold h, hsp⟩
  case freshSpace =>
    intro s hle
    rw [hs.nextSpace] at hle
    obtain ⟨S, hS⟩ := hs.spaces
    rw [hS, Function.update_of_ne (Nat.ne_of_gt hle), hp.freshSpace s (Nat.le_of_succ_le hle)]
  case active =>
    intro t ht
    rw [hs.active, List.mem_append, List.mem_singleton] at ht
    rw [hs.live hp]
    split
    · rfl
    · exact hp.active t (ht.resolve_right ‹_›)
  case nodup =>
    rw [hs.active]
    refine List.nodup_append.mpr ⟨hp.nodup, List.nodup_singleton _, fun a ha b hb => ?_⟩
    rw [List.mem_singleton] at hb
    obtain ⟨T, hT⟩ := Option.isSome_iff_exists.mp (hp.active a ha)
    exact hb ▸ hp.live_ne hT
  case idLt =>
    intro t T h
    rw [hs.threadID]
    rcases hcases h with ⟨-, rfl⟩ | ⟨-, h⟩
    · exact Nat.lt_succ_self _
    · exact Nat.lt_succ_of_lt (hp.idLt h)
  case idInj =>
    intro t t' T T' h h' hid
    rcases hcases h with ⟨ht, rfl⟩ | ⟨-, h⟩ <;> rcases hcases h' with ⟨ht', rfl⟩ | ⟨-, h'⟩
    · rw [ht, ht']
    · exact absurd hid (Nat.ne_of_gt (hp.idLt h'))
    · exact absurd hid (Nat.ne_of_lt (hp.idLt h))
    · exact hp.idInj h h' hid
  case kill =>
    intro t T h
    rcases hcases h with ⟨-, rfl⟩ | ⟨-, h⟩
    · rfl
    · exact hp.kill h

/-! ## Join -/

/-- The thread objects after thread `t` went to sleep until `c` finishes. -/
def joinEffect (t c x : ThreadPtr) (X : Thread) : Thread :=
  { X with parent := if x = c then some t else X.parent
           isJoined := if x = t then true else X.isJoined }

/-- `SC_Join` does nothing, or it finds a thread of the active list by its ID
and puts the running thread to sleep until that one finishes. -/
theorem join_cases (k : Kernel) :
    k.join = (k, .stay) ∨
    ∃ c k', k.join = (k', .sleep) ∧ 0 ≤ (k.registers 4).toInt ∧
      k.activeThreads.reverse.find? (k.hasID (k.registers 4).toInt) = some c ∧
      (k.thread k.currentThread).map Thread.isJoined = some false ∧
      k' = { k with thread := fun x => (k.thread x).map (joinEffect k.currentThread c x) } := by
  unfold join
  dsimp only
  split
  · exact .inl rfl
  · rename_i hid
    rw [getID_eq]
    split
    · rename_i c active hfind hj
      obtain ⟨hc, rfl⟩ := Prod.mk.inj hfind
      refine .inr ⟨c, _, rfl, by omega, hc, hj, ?_⟩
      unfold setThread
      congr 1
      funext x
      simp only [Function.update_apply]
      by_cases hxc : x = c <;> by_cases hxt : x = k.currentThread <;>
        by_cases hct : k.currentThread = c <;> cases hX : k.thread x <;>
        simp_all [joinEffect]
    · rename_i active hfind _
      obtain ⟨-, rfl⟩ := Prod.mk.inj hfind
      exact .inl rfl

theorem live_map (k : Kernel) (f : ThreadPtr → Thread → Thread) (t : ThreadPtr) :
    { k with thread := fun x => (k.thread x).map (f x) }.live t = (k.live t).map (f t) := by
  unfold live
  dsimp only
  split <;> rfl

theorem Processes.join {c : ThreadPtr} {T : Thread} (hp : k.Processes)
    (hcur : k.live k.currentThread = some T) (hj : T.isJoined = false)
    (hk : k' = { k with thread := fun x => (k.thread x).map (joinEffect k.currentThread c x) }) :
    k'.Processes := by
  have hlive (x : ThreadPtr) : k'.live x = (k.live x).map (joinEffect k.currentThread c x) := by
    rw [hk, live_map]
  have hkeep {t : ThreadPtr} {X' : Thread} (h : k'.live t = some X') :
      ∃ X, k.live t = some X ∧ X'.ID = X.ID ∧ X'.space = X.space ∧
        X'.killNewChild = X.killNewChild := by
    rw [hlive] at h
    obtain ⟨X, hX, rfl⟩ := Option.map_eq_some_iff.mp h
    exact ⟨X, hX, rfl, rfl, rfl⟩
  refine ⟨hp.toIdentities.kept (by rw [hk]) hkeep, ?fresh, ?dying, ?parent, ?onlyChild, ?space,
    ?owner, ?freshSpace, ?active, ?nodup⟩
  case fresh => intro t ht; subst hk; dsimp only; rw [hp.fresh t ht]; rfl
  case dying => intro x hx; subst hk; dsimp only; rw [Option.isSome_map]; exact hp.dying x hx
  case parent =>
    intro x X' p hx hpar
    rw [hlive] at hx
    obtain ⟨X, hX, rfl⟩ := Option.map_eq_some_iff.mp hx
    by_cases hxc : x = c
    · simp only [joinEffect, hxc, if_true, Option.some.injEq] at hpar
      subst hpar
      exact ⟨_, by rw [hlive, hcur]; rfl, by simp [joinEffect]⟩
    · simp only [joinEffect, if_neg hxc] at hpar
      obtain ⟨P, hP, hPj⟩ := hp.parent hX hpar
      exact ⟨_, by rw [hlive, hP]; rfl, by simp [joinEffect, hPj]⟩
  case onlyChild =>
    have hold {x : ThreadPtr} {X' : Thread} {p : ThreadPtr} (h : k'.live x = some X')
        (hpar : X'.parent = some p) :
        x = c ∧ p = k.currentThread ∨ ∃ X, k.live x = some X ∧ X.parent = some p := by
      rw [hlive] at h
      obtain ⟨X, hX, rfl⟩ := Option.map_eq_some_iff.mp h
      by_cases hxc : x = c
      · simp only [joinEffect, hxc, if_true, Option.some.injEq] at hpar
        exact .inl ⟨hxc, hpar.symm⟩
      · simp only [joinEffect, if_neg hxc] at hpar
        exact .inr ⟨X, hX, hpar⟩
    intro x x' X X' p h h' hpar hpar'
    rcases hold h hpar with ⟨hx, rfl⟩ | ⟨Y, hY, hYp⟩
    · rcases hold h' hpar' with ⟨hx', -⟩ | ⟨Y', hY', hYp'⟩
      · rw [hx, hx']
      · exact absurd hYp' (hp.parent_ne hcur hj hY')
    · rcases hold h' hpar' with ⟨-, rfl⟩ | ⟨Y', hY', hYp'⟩
      · exact absurd hYp (hp.parent_ne hcur hj hY)
      · exact hp.onlyChild hY hY' hYp hYp'
  case space =>
    intro t X h
    obtain ⟨Y, hY, -, hYs, -⟩ := hkeep h
    subst hk
    rw [hYs]
    exact hp.space hY
  case owner =>
    intro s hs
    obtain ⟨t, X, hX, hXs⟩ := hp.owner (s := s) (by subst hk; exact hs)
    exact ⟨t, joinEffect k.currentThread c t X, by rw [hlive, hX]; rfl, hXs⟩
  case freshSpace => subst hk; exact hp.freshSpace
  case active =>
    intro t ht
    rw [hlive, Option.isSome_map]
    exact hp.active t (by subst hk; exact ht)
  case nodup => subst hk; exact hp.nodup

/-! ## Termination -/

/-- The thread objects after a child of `p` finished. -/
def wakeEffect (p : Option ThreadPtr) (x : ThreadPtr) (X : Thread) : Thread :=
  if p = some x then { X with isJoined := false } else X

theorem wakeEffect_parent (p : Option ThreadPtr) (x : ThreadPtr) (X : Thread) :
    (wakeEffect p x X).parent = X.parent := by
  unfold wakeEffect
  split <;> rfl

theorem wakeEffect_kept (p : Option ThreadPtr) (x : ThreadPtr) (X : Thread) :
    (wakeEffect p x X).ID = X.ID ∧ (wakeEffect p x X).space = X.space ∧
      (wakeEffect p x X).killNewChild = X.killNewChild := by
  unfold wakeEffect
  split <;> exact ⟨rfl, rfl, rfl⟩

theorem finish_eq (k : Kernel) : ∃ st, k.finish = { k with
    threadToBeDestroyed := some k.currentThread
    thread := fun x => (k.thread x).map
      (wakeEffect ((k.thread k.currentThread).bind Thread.parent) x)
    status := st
    readyList := ((k.thread k.currentThread).bind Thread.parent).toList ++ k.readyList
    activeThreads := removeActive k.currentThread k.activeThreads.length 0 k.activeThreads } := by
  unfold finish
  dsimp only
  cases hp : (k.thread k.currentThread).bind Thread.parent with
  | none =>
    refine ⟨k.status, ?_⟩
    have hid : (fun x => (k.thread x).map (wakeEffect none x)) = k.thread := by
      funext x
      cases hX : k.thread x <;> simp [wakeEffect]
    rw [hid]
    rfl
  | some p =>
    refine ⟨Function.update k.status p .ready, ?_⟩
    have hupd : (fun x => (k.thread x).map (wakeEffect (some p) x)) =
        Function.update k.thread p ((k.thread p).map fun T => { T with isJoined := false }) := by
      funext x
      rw [Function.update_apply]
      by_cases hx : x = p
      · subst hx
        cases hX : k.thread x <;> simp [wakeEffect]
      · cases hX : k.thread x <;> simp [wakeEffect, hx, Ne.symm hx]
    rw [hupd]
    rfl

theorem terminate_eq_ok {T : Thread} {s : SpacePtr} (hT : k.thread k.currentThread = some T)
    (hs : T.space = some s) (h : k.terminate = .ok k') :
    ∃ S m st, k.space s = some S ∧ S.clearFrames k.memMap = .ok m ∧ k' =
      { k with
        memMap := m
        space := Function.update k.space s none
        hostDir := Function.update k.hostDir S.swapfilename none
        threadToBeDestroyed := some k.currentThread
        thread := fun x => (k.thread x).map (wakeEffect T.parent x)
        status := st
        readyList := T.parent.toList ++ k.readyList
        activeThreads :=
          removeActive k.currentThread k.activeThreads.length 0 k.activeThreads } := by
  have hsp : k.spaceOf k.currentThread = some s := by
    unfold spaceOf
    rw [hT]
    exact hs
  unfold terminate at h
  rw [hsp] at h
  obtain ⟨k1, h1, h⟩ := bind_eq_ok.mp h
  cases h
  unfold deleteSpace at h1
  split at h1
  · cases h1
  · rename_i S hS
    obtain ⟨m, hm, h1⟩ := bind_eq_ok.mp h1
    cases h1
    obtain ⟨st, hf⟩ := finish_eq ({ k with memMap := m
                                           space := Function.update k.space s none }.removeFile
                                  S.swapfilename)
    refine ⟨S, m, st, hS, hm, ?_⟩
    rw [hf]
    have hpar : (k.thread k.currentThread).bind Thread.parent = T.parent := by rw [hT]; rfl
    change _ = _
    simp only [removeFile, hpar]

/-- What the end of the running thread leaves: the thread object stays until the next
switch, the space `s` goes at once, and the parent no longer waits. -/
structure Terminated (k k' : Kernel) (parent : Option ThreadPtr) (s : SpacePtr) : Prop where
  thread : ∀ x, k'.thread x = (k.thread x).map (wakeEffect parent x)
  dying : k'.threadToBeDestroyed = some k.currentThread
  nextThread : k'.nextThread = k.nextThread
  active : k'.activeThreads = removeActive k.currentThread k.activeThreads.length 0 k.activeThreads
  threadID : k'.threadID = k.threadID
  nextSpace : k'.nextSpace = k.nextSpace
  spaces : k'.space = Function.update k.space s none

namespace Terminated
variable {parent : Option ThreadPtr} {s : SpacePtr}

theorem live (ht : Terminated k k' parent s) (hd : k.threadToBeDestroyed = none) (x : ThreadPtr) :
    k'.live x =
      if x = k.currentThread then none else (k.live x).map (wakeEffect parent x) := by
  unfold Kernel.live
  rw [hd, ht.dying, ht.thread]
  simp only [Option.some.injEq, eq_comm (a := k.currentThread)]
  rfl

/-- The threads that are left are others, and have been there before. -/
theorem live_cases (ht : Terminated k k' parent s) (hd : k.threadToBeDestroyed = none)
    {x : ThreadPtr} {X' : Thread} (h : k'.live x = some X') :
    x ≠ k.currentThread ∧ ∃ X, k.live x = some X ∧ X' = wakeEffect parent x X := by
  rw [ht.live hd] at h
  split at h
  · cases h
  · obtain ⟨X, hX, rfl⟩ := Option.map_eq_some_iff.mp h
    exact ⟨‹_›, X, hX, rfl⟩

theorem live_of_ne (ht : Terminated k k' parent s) (hd : k.threadToBeDestroyed = none)
    {x : ThreadPtr} {X : Thread} (hx : x ≠ k.currentThread) (h : k.live x = some X) :
    k'.live x = some (wakeEffect parent x X) := by
  rw [ht.live hd, if_neg hx, h]
  rfl

end Terminated

theorem Processes.terminated {T : Thread} {s : SpacePtr} (hp : k.Processes)
    (hcur : k.live k.currentThread = some T) (hj : T.isJoined = false)
    (hd : k.threadToBeDestroyed = none) (hs : T.space = some s)
    (ht : Terminated k k' T.parent s) : k'.Processes := by
  refine ⟨hp.toIdentities.kept ht.threadID ?kept, ?fresh, ?dying, ?parent, ?onlyChild, ?space,
    ?owner, ?freshSpace, ?active, ?nodup⟩
  case kept =>
    intro x X' h
    obtain ⟨-, X, hX, rfl⟩ := ht.live_cases hd h
    exact ⟨X, hX, wakeEffect_kept _ _ X⟩
  case fresh =>
    intro x hx
    rw [ht.nextThread] at hx
    rw [ht.thread, hp.fresh x hx]
    rfl
  case dying =>
    intro x hx
    rw [ht.dying] at hx
    cases hx
    rw [ht.thread, Option.isSome_map, (live_eq_some hcur).2]
    rfl
  case parent =>
    intro c C' p hc hpar
    obtain ⟨hne, C, hC, rfl⟩ := ht.live_cases hd hc
    rw [wakeEffect_parent] at hpar
    obtain ⟨P, hP, hPj⟩ := hp.parent hC hpar
    -- the parent of another thread is neither the finishing thread nor the one it wakes
    have hpc : p ≠ k.currentThread := by
      rintro rfl
      exact hp.parent_ne hcur hj hC hpar
    have hpw : T.parent ≠ some p := fun he => hne (hp.onlyChild hC hcur hpar he)
    refine ⟨_, ht.live_of_ne hd hpc hP, ?_⟩
    rw [wakeEffect, if_neg hpw]
    exact hPj
  case onlyChild =>
    intro c c' C C' p hc hc' hpar hpar'
    obtain ⟨-, X, hX, rfl⟩ := ht.live_cases hd hc
    obtain ⟨-, X', hX', rfl⟩ := ht.live_cases hd hc'
    rw [wakeEffect_parent] at hpar hpar'
    exact hp.onlyChild hX hX' hpar hpar'
  case space =>
    intro x X' h
    obtain ⟨hne, X, hX, rfl⟩ := ht.live_cases hd h
    obtain ⟨s', hs', hsome'⟩ := hp.space hX
    -- those that stay do not use the space that goes
    have hss : s' ≠ s := fun he => hne (hp.spaceInj hX hcur (he ▸ hs') hs)
    refine ⟨s', (wakeEffect_kept _ _ X).2.1.trans hs', ?_⟩
    rw [ht.spaces, Function.update_of_ne hss]
    exact hsome'
  case owner =>
    intro s' hs'
    rw [ht.spaces, Function.update_apply] at hs'
    split at hs'
    · cases hs'
    · rename_i hss
      obtain ⟨x, X, hX, hXs⟩ := hp.owner hs'
      have hne : x ≠ k.currentThread := by
        rintro rfl
        rw [hcur] at hX
        cases hX
        rw [hs] at hXs
        exact hss (Option.some.inj hXs).symm
      exact ⟨x, _, ht.live_of_ne hd hne hX, (wakeEffect_kept _ _ X).2.1.trans hXs⟩
  case freshSpace =>
    intro s' hs'
    rw [ht.nextSpace] at hs'
    rw [ht.spaces, Function.update_apply, hp.freshSpace s' hs']
    split <;> rfl
  case active =>
    intro x hx
    rw [ht.active, (removeActive_perm hp.nodup).mem_iff, List.mem_filter] at hx
    rw [ht.live hd, if_neg (of_decide_eq_true hx.2), Option.isSome_map]
    exact hp.active x hx.1
  case nodup =>
    rw [ht.active]
    exact (removeActive_perm hp.nodup).nodup_iff.mpr (hp.nodup.filter _)

theorem Processes.terminate {T : Thread} (hp : k.Processes)
    (hcur : k.live k.currentThread = some T) (hj : T.isJoined = false)
    (hd : k.threadToBeDestroyed = none) (h : k.terminate = .ok k') :
    k'.Processes ∧ ∀ x, k'.live x =
      if x = k.currentThread then none else (k.live x).map (wakeEffect T.parent x) := by
  obtain ⟨s, hs, -⟩ := hp.space hcur
  obtain ⟨S, m, st, -, -, hk⟩ := terminate_eq_ok (live_eq_some hcur).2 hs h
  have ht : Terminated k k' T.parent s := by
    subst hk
    exact ⟨fun _ => rfl, rfl, rfl, rfl, rfl, rfl, rfl⟩
  exact ⟨hp.terminated hcur hj hd hs ht, ht.live hd⟩

end Kernel
end Nachos

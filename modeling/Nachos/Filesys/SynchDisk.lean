import Nachos.Machine.Disk
import Nachos.Threads.Semaphores

/-! The synchronous disk (synchdisk.cc), over the machine of threads and
semaphores. A call makes its request and waits on the disk's semaphore, on
which the interrupt handler calls `V`. The lock that is to keep the calls apart
is a dummy (synch.cc), so nothing stops a thread from making a request while
another one is waiting. -/

namespace Nachos.SynchDisk
open Lib

/-- The semaphore of the disk among those of the machine. -/
abbrev semaphore : Synch.SemPtr := 0

structure State where
  threads : Synch.State
  disk : Disk
  /-- The buffer each thread has passed to its last call. -/
  data : ThreadPtr → Sector
  /-- The completion interrupts that are scheduled, each with the number of its
  request. -/
  pending : List Nat
  -- not in the code: the requests made, the one each thread waits for, those
  -- whose interrupt has come, and those whose call has returned
  requests : Nat
  call : ThreadPtr → Option Nat
  completed : List Nat
  returned : List Nat

inductive Event
  | readSector (sectorNumber : Int)
  | writeSector (sectorNumber : Int) (data : Sector)
  /-- The interrupt of a request. -/
  | requestDone
  /-- Anything else the machine does. -/
  | other (e : Synch.Event)

namespace State

/-- `P` has returned, and so does the call. -/
def leave (k : State) : State :=
  match k.call k.threads.currentThread with
  | none => k
  | some r =>
    if k.threads.InCode then
      { k with
        threads := k.threads.release
        call := Function.update k.call k.threads.currentThread none
        returned := r :: k.returned }
    else k

/-- The current thread has made a request, and `P` has got as far as `threads`. -/
def requested (k : State) (data : Sector) (disk : Disk) (threads : Synch.State) : State :=
  { k with
    threads, disk
    data := Function.update k.data k.threads.currentThread data
    pending := k.pending ++ [k.requests]
    requests := k.requests + 1
    call := Function.update k.call k.threads.currentThread (some k.requests) }

/-- `ReadSector` and `WriteSector`, to the first test of the semaphore's value. -/
def transfer (k : State) (sectorNumber : Int) (f : Sector → Sector) : Except Fault State := do
  let k := { k with threads := k.threads.acquire }
  let (data, disk) ← k.disk.request sectorNumber f
  let threads ← k.threads.test semaphore
  .ok (k.requested data disk threads).leave

/-- `SynchDisk::ReadSector`. -/
def readSector (k : State) (sectorNumber : Int) : Except Fault State := k.transfer sectorNumber id

/-- `SynchDisk::WriteSector`. -/
def writeSector (k : State) (sectorNumber : Int) (data : Sector) : Except Fault State :=
  k.transfer sectorNumber fun _ => data

/-- `Disk::HandleInterrupt`, with `SynchDisk::RequestDone` as its handler. -/
def requestDone (k : State) : Except Fault State :=
  match k.pending with
  | [] => .error .disabled
  | r :: rest => do
    let threads ← k.threads.step (.interrupt semaphore)
    .ok { k with
      threads, disk := k.disk.handleInterrupt, pending := rest, completed := r :: k.completed }

/-- The events that only the disk's own code takes. -/
def Private (e : Synch.Event) : Prop :=
  e = .p semaphore ∨ e = .v semaphore ∨ e = .interrupt semaphore

instance (e : Synch.Event) : Decidable (Private e) := inferInstanceAs (Decidable (_ ∨ _))

def step (k : State) : Event → Except Fault State
  | .readSector n => if k.threads.InCode then k.readSector n else .error .disabled
  | .writeSector n data => if k.threads.InCode then k.writeSector n data else .error .disabled
  | .requestDone => k.requestDone
  | .other e =>
    if Private e then .error .disabled
    else do
      let threads ← k.threads.step e
      .ok { k with threads }.leave

end State

/-- Any disk, and the main thread alone. -/
def init (value : Synch.SemPtr → Int) (sectors : Sectors) : State where
  threads := Synch.init (Function.update value semaphore 0)
  disk := ⟨sectors, false⟩
  data := fun _ _ => 0
  pending := []
  requests := 0
  call := fun _ => none
  completed := []
  returned := []

namespace State

/-! ## One call at a time -/

/-- A call is made while no thread is in another one. -/
def Alone (k : State) : Event → Prop
  | .readSector _ | .writeSector _ _ => k.threads.InCode → ∀ t, k.call t = none
  | _ => True

/-- Nobody is in a call. -/
structure Quiet (k : State) : Prop where
  call : ∀ t, k.call t = none
  active : k.disk.active = false
  pending : k.pending = []
  semaphore : k.threads.semaphore semaphore = ⟨0, []⟩

/-- The call of `t` waits for the interrupt. -/
structure Waiting (k : State) (t : ThreadPtr) (r : Nat) : Prop where
  call : k.call = Function.update (fun _ => none) t (some r)
  active : k.disk.active = true
  pending : k.pending = [r]
  semaphore : k.threads.semaphore semaphore = ⟨0, [t]⟩

/-- The interrupt has come, and `t` has not run since. -/
structure Served (k : State) (t : ThreadPtr) (r : Nat) : Prop where
  call : k.call = Function.update (fun _ => none) t (some r)
  active : k.disk.active = false
  pending : k.pending = []
  semaphore : k.threads.semaphore semaphore = ⟨1, []⟩
  completed : r ∈ k.completed

inductive Phase (k : State) : Prop
  | quiet (h : k.Quiet)
  | waiting (t : ThreadPtr) (r : Nat) (h : k.Waiting t r)
  | served (t : ThreadPtr) (r : Nat) (h : k.Served t r)

/-- What holds as long as the calls are made one at a time. -/
structure Serial (k : State) : Prop where
  inv : k.threads.Inv
  phase : k.Phase
  inP : ∀ t, k.threads.point t = .inP semaphore ↔ k.call t ≠ none
  unborn : ∀ t, k.threads.life t = .unborn → k.call t = none
  numbered : ∀ r ∈ k.pending ++ k.completed, r < k.requests
  returned : ∀ r ∈ k.returned, r ∈ k.completed

variable {k k' : State}

theorem init_serial (value : Synch.SemPtr → Int) (sectors : Sectors) :
    (init value sectors).Serial where
  inv := Synch.State.init_inv _
  phase := .quiet ⟨fun _ => rfl, rfl, rfl, by simp [init, Synch.init]⟩
  inP t := by simp [init, Synch.init]
  unborn _ _ := rfl
  numbered r hr := by simp [init] at hr
  returned r hr := by simp [init] at hr

/-- Where the current thread is not in a call there is none to leave. -/
theorem leave_eq_self (h : k.call k.threads.currentThread = none ∨ ¬ k.threads.InCode) :
    k.leave = k := by
  unfold leave
  split
  · rfl
  · rename_i hc
    rw [if_neg (h.resolve_left (by simp [hc]))]

theorem leave_eq {r : Nat} (hcall : k.call k.threads.currentThread = some r)
    (hcode : k.threads.InCode) : k.leave = { k with
      call := Function.update k.call k.threads.currentThread none
      returned := r :: k.returned } := by
  unfold leave
  rw [hcall]
  exact if_pos hcode

/-! ## Requests -/

/-- What a request comes to: an assertion, or the wait for the interrupt. -/
theorem transfer_cases {n : Int} {f : Sector → Sector} :
    (k.disk.active = true ∧ k.transfer n f = .error (.assertion .diskActive)) ∨
    (k.disk.active = false ∧ ¬ (0 ≤ n ∧ n < numSectors) ∧
      k.transfer n f = .error (.assertion .diskSector)) ∨
    (k.disk.active = false ∧ (0 ≤ n ∧ n < numSectors) ∧
      k.transfer n f = k.threads.test semaphore >>= fun threads =>
        .ok (k.requested (f (k.disk.sectors n.toNat))
          ⟨Function.update k.disk.sectors n.toNat (f (k.disk.sectors n.toNat)), true⟩
          threads).leave) := by
  cases ha : k.disk.active with
  | true =>
    left
    refine ⟨rfl, ?_⟩
    unfold transfer Disk.request
    simp only [ha, if_true]
    rfl
  | false =>
    right
    by_cases hn : 0 ≤ n ∧ n < numSectors
    · right
      refine ⟨rfl, hn, ?_⟩
      unfold transfer Disk.request
      simp only [ha, if_pos hn, Synch.State.acquire]
      rfl
    · left
      refine ⟨rfl, hn, ?_⟩
      unfold transfer Disk.request
      simp only [ha, if_neg hn]
      rfl

theorem test_ne_active : k.threads.test semaphore ≠ .error (.assertion .diskActive) := by
  unfold Synch.State.test cInt
  split
  · simp
  · split <;> intro h <;> cases h

theorem transfer_ne_active {n : Int} {f : Sector → Sector} (ha : k.disk.active = false) :
    k.transfer n f ≠ .error (.assertion .diskActive) := by
  intro herr
  rcases transfer_cases (k := k) (n := n) (f := f) with ⟨ha', -⟩ | ⟨-, -, he⟩ | ⟨-, -, he⟩
  · rw [ha] at ha'; cases ha'
  · rw [herr] at he; cases he
  · rw [herr] at he
    cases ht : k.threads.test semaphore with
    | error e => rw [ht, error_bind] at he; cases he; exact test_ne_active ht
    | ok threads => rw [ht, ok_bind] at he; cases he

theorem Phase.quiet_of_none (h : k.Phase) (hn : ∀ t, k.call t = none) : k.Quiet := by
  cases h with
  | quiet h => exact h
  | waiting t r h => have := hn t; rw [h.call, Function.update_self] at this; cases this
  | served t r h => have := hn t; rw [h.call, Function.update_self] at this; cases this

theorem Phase.quiet_of_value (h : k.Phase) (ha : k.disk.active = false)
    (hv : (k.threads.semaphore semaphore).value = 0) : k.Quiet := by
  cases h with
  | quiet h => exact h
  | waiting t r h => rw [h.active] at ha; cases ha
  | served t r h => rw [h.semaphore] at hv; cases hv

/-- The value of the semaphore is 0 when a call comes alone, so it waits. -/
theorem Serial.transfer {n : Int} {f : Sector → Sector} (h : k.Serial) (hc : k.threads.InCode)
    (halone : ∀ t, k.call t = none) (ht : k.transfer n f = .ok k') : k'.Serial := by
  have hq := h.phase.quiet_of_none halone
  have htest : k.threads.test semaphore = .ok (k.threads.waitOn semaphore) := by
    unfold Synch.State.test
    rw [hq.semaphore]
    rfl
  have hstep : k.threads.step (.p semaphore) = .ok (k.threads.waitOn semaphore) := by
    simp only [Synch.State.step, if_pos hc, htest]
  rcases transfer_cases (k := k) (n := n) (f := f) with ⟨-, he⟩ | ⟨-, -, he⟩ | ⟨-, -, he⟩
  · rw [ht] at he; cases he
  · rw [ht] at he; cases he
  rw [ht, htest, ok_bind] at he
  cases he
  rw [leave_eq_self (.inr fun hcode => by simp [requested, Synch.State.waitOn, Synch.State.sleep,
    Synch.State.InCode] at hcode)]
  have hcall : k.call = fun _ => none := funext halone
  refine ⟨Synch.State.step_inv h.inv hstep, .waiting k.threads.currentThread k.requests
    ⟨?_, rfl, ?_, ?_⟩, fun t => ?_, fun t hl => ?_, fun r hr => ?_, h.returned⟩
  · simp only [requested, hcall]
  · simp only [requested, hq.pending, List.nil_append]
  · simp [requested, Synch.State.waitOn, Synch.State.setSemaphore, Synch.State.setPoint,
      Synch.State.sleep, hq.semaphore]
  · simp only [requested, Synch.State.waitOn, Synch.State.setSemaphore, Synch.State.setPoint,
      Synch.State.sleep, Function.update_apply]
    split
    · simp
    · exact h.inP t
  · have hne : t ≠ k.threads.currentThread := by
      rintro rfl
      rw [show ((k.requested _ _ (k.threads.waitOn semaphore)).threads).life = k.threads.life from
        rfl, h.inv.current_alive hc.1] at hl
      cases hl
    exact (Function.update_of_ne hne _ _).trans (h.unborn t hl)
  · simp only [requested, hq.pending, List.nil_append, List.singleton_append] at hr
    rcases List.mem_cons.mp hr with rfl | hr
    · exact Nat.lt_succ_self _
    · exact Nat.lt_succ_of_lt (h.numbered r (List.mem_append_right _ hr))

/-! ## The interrupt -/

/-- An interrupt comes only for a call that waits. -/
theorem Serial.requestDone (h : k.Serial) (hd : k.requestDone = .ok k') : k'.Serial := by
  unfold State.requestDone at hd
  split at hd
  · cases hd
  rename_i r rest hp
  obtain ⟨threads, hs, hk⟩ := bind_eq_ok.mp hd
  cases hk
  have hw : ∃ t, k.Waiting t r ∧ rest = [] := by
    cases h.phase with
    | quiet h => rw [h.pending] at hp; cases hp
    | waiting t r' hw =>
      rw [hw.pending] at hp
      cases hp
      exact ⟨t, hw, rfl⟩
    | served t r' h => rw [h.pending] at hp; cases hp
  obtain ⟨t, hw, rfl⟩ := hw
  obtain ⟨-, hv⟩ := ite_error_eq_ok.mp hs
  have hv' : k.threads.v semaphore = .ok threads := hv
  obtain ⟨value, hvalue, hk⟩ := bind_eq_ok.mp hv
  obtain ⟨-, rfl⟩ := cInt_eq_ok.mp hvalue
  simp only [hw.semaphore] at hk
  injection hk with hk
  have hsem : threads.semaphore semaphore = ⟨1, []⟩ := by
    rw [← hk]
    simp [Synch.State.setSemaphore, Synch.State.readyToRun]
  have hpoint : threads.point = k.threads.point := by rw [← hk]; rfl
  refine ⟨Synch.State.step_inv h.inv hs, .served t r
    ⟨hw.call, rfl, rfl, hsem, List.mem_cons_self⟩, fun u => ?_, fun u hu => ?_, fun r' hr' => ?_,
    fun r' hr' => List.mem_cons_of_mem _ (h.returned r' hr')⟩
  · rw [hpoint]; exact h.inP u
  · exact h.unborn u (by rw [← Synch.State.v_life hv']; exact hu)
  · refine h.numbered r' ?_
    rw [hw.pending]
    exact hr'

/-! ## Everything else -/

/-- The thread that goes on with its `P` is the one that has been served. -/
theorem Serial.served_of_inP (h : k.Serial) (hr : k.threads.cpu = .running)
    (hp : k.threads.point k.threads.currentThread = .inP semaphore) :
    ∃ r, k.Served k.threads.currentThread r := by
  have hcall := (h.inP _).mp hp
  cases h.phase with
  | quiet hq => exact absurd (hq.call _) hcall
  | waiting t r hw =>
    -- a thread that runs is on no queue
    have ht : k.threads.currentThread = t := by
      by_contra hne
      rw [hw.call, Function.update_of_ne hne] at hcall
      exact hcall rfl
    obtain ⟨place, hplace, hon⟩ := h.inv
    have hnot := (hplace.queue semaphore).notMem (hon.current hr) (by simp)
    rw [hw.semaphore, ht] at hnot
    exact absurd List.mem_cons_self hnot
  | served t r hs =>
    have ht : k.threads.currentThread = t := by
      by_contra hne
      rw [hs.call, Function.update_of_ne hne] at hcall
      exact hcall rfl
    exact ⟨r, ht ▸ hs⟩

/-- The thread that has been served takes the value and returns. -/
theorem Serial.resume {threads : Synch.State} (h : k.Serial)
    (hp : k.threads.point k.threads.currentThread = .inP semaphore)
    (hs : k.threads.step .resume = .ok threads) : { k with threads }.leave.Serial := by
  obtain ⟨hrun, hk⟩ := ite_error_eq_ok.mp hs
  obtain ⟨r, hserved⟩ := h.served_of_inP hrun hp
  unfold Synch.State.resume at hk
  rw [hp] at hk
  dsimp only [Synch.State.test] at hk
  rw [hserved.semaphore, if_neg (by decide)] at hk
  obtain ⟨value, hvalue, hk⟩ := bind_eq_ok.mp hk
  obtain ⟨-, rfl⟩ := cInt_eq_ok.mp hvalue
  injection hk with hk
  have hcur : threads.currentThread = k.threads.currentThread := by rw [← hk]; rfl
  have hpoint : threads.point = Function.update k.threads.point k.threads.currentThread .code := by
    rw [← hk]; rfl
  have hsem : threads.semaphore semaphore = ⟨0, []⟩ := by
    rw [← hk]
    simp [Synch.State.setSemaphore, Synch.State.setPoint]
  have hcode : threads.InCode := ⟨by rw [← hk]; exact hrun, by rw [hcur, hpoint]; simp⟩
  have hcall : k.call k.threads.currentThread = some r := by rw [hserved.call]; simp
  have hnone : Function.update k.call k.threads.currentThread none = fun _ => none := by
    rw [hserved.call, Function.update_idem, Function.update_eq_self_iff]
  rw [leave_eq (k := { k with threads }) (r := r) (by rw [hcur]; exact hcall) hcode]
  simp only [hcur, hnone]
  refine ⟨Synch.State.step_inv h.inv hs,
    .quiet ⟨fun _ => rfl, hserved.active, hserved.pending, hsem⟩, fun t => ?_, fun _ _ => rfl,
    h.numbered, fun r' hr' => ?_⟩
  · rw [hpoint, Function.update_apply]
    split
    · simp
    · rename_i hne
      rw [h.inP t, hserved.call, Function.update_of_ne hne]
  · rcases List.mem_cons.mp hr' with rfl | hr'
    · exact hserved.completed
    · exact h.returned r' hr'

theorem Phase.of_spared {threads : Synch.State} (h : k.Phase)
    (hs : threads.semaphore semaphore = k.threads.semaphore semaphore) :
    { k with threads }.Phase := by
  cases h with
  | quiet h => exact .quiet ⟨h.call, h.active, h.pending, hs.trans h.semaphore⟩
  | waiting t r h => exact .waiting t r ⟨h.call, h.active, h.pending, hs.trans h.semaphore⟩
  | served t r h =>
    exact .served t r ⟨h.call, h.active, h.pending, hs.trans h.semaphore, h.completed⟩

theorem Serial.other {e : Synch.Event} (h : k.Serial) (he : ¬ Private e) {threads : Synch.State}
    (hs : k.threads.step e = .ok threads) : { k with threads }.leave.Serial := by
  by_cases hresume : e = .resume ∧ k.threads.point k.threads.currentThread = .inP semaphore
  · obtain ⟨rfl, hp⟩ := hresume
    exact h.resume hp hs
  have hforeign : k.threads.Foreign semaphore e :=
    ⟨fun h => he (.inl h), fun h => he (.inr (.inl h)), fun h => he (.inr (.inr h)),
      fun h hp => hresume ⟨h, hp⟩⟩
  have hborn (t : ThreadPtr) (ht : k.threads.life t = .unborn) :
      k.threads.point t ≠ .inP semaphore := fun hp => (h.inP t).mp hp (h.unborn t ht)
  obtain ⟨hsem, hpoint⟩ := Synch.State.step_spared hforeign hborn hs
  have hinP (t : ThreadPtr) : threads.point t = .inP semaphore ↔ k.call t ≠ none :=
    (hpoint t).trans (h.inP t)
  -- whoever is in a call now is still in its loop
  have hstay : k.call threads.currentThread = none ∨ ¬ threads.InCode := by
    refine or_iff_not_imp_left.mpr fun hc hcode => ?_
    have := (hinP _).mpr hc
    rw [hcode.2] at this
    cases this
  rw [leave_eq_self hstay]
  exact ⟨Synch.State.step_inv h.inv hs, h.phase.of_spared hsem, hinP,
    fun t ht => h.unborn t (Synch.State.unborn_of_step h.inv hs ht), h.numbered, h.returned⟩

theorem Serial.step {e : Event} (h : k.Serial) (ha : k.Alone e) (hs : k.step e = .ok k') :
    k'.Serial := by
  cases e with
  | readSector n =>
    obtain ⟨hc, ht⟩ := ite_error_eq_ok.mp hs
    exact h.transfer hc (ha hc) ht
  | writeSector n data =>
    obtain ⟨hc, ht⟩ := ite_error_eq_ok.mp hs
    exact h.transfer hc (ha hc) ht
  | requestDone => exact h.requestDone hs
  | other e =>
    obtain ⟨he, hk⟩ := ite_error_left_eq_ok.mp hs
    obtain ⟨threads, ht, hk⟩ := bind_eq_ok.mp hk
    cases hk
    exact h.other he ht

/-! ## Calls that overlap -/

/-- A call that comes while another thread waits finds the disk active; one
that comes after the interrupt and before that thread has run takes the value
meant for it, and returns before its own interrupt. -/
theorem Serial.overlap {n : Int} {f : Sector → Sector} {t : ThreadPtr} (h : k.Serial)
    (hc : k.threads.InCode) (hn : 0 ≤ n ∧ n < numSectors) (ht : k.call t ≠ none) :
    k.transfer n f = .error (.assertion .diskActive) ∨
      ∃ k', k.transfer n f = .ok k' ∧ k.requests ∈ k'.returned ∧ k.requests ∉ k'.completed := by
  rcases transfer_cases (k := k) (n := n) (f := f) with ⟨-, he⟩ | ⟨-, hn', -⟩ | ⟨ha, -, he⟩
  · exact .inl he
  · exact absurd hn hn'
  right
  have hserved : k.threads.semaphore semaphore = ⟨1, []⟩ := by
    cases h.phase with
    | quiet hq => exact absurd (hq.call t) ht
    | waiting t' r hw => rw [hw.active] at ha; cases ha
    | served t' r hs => exact hs.semaphore
  obtain ⟨threads, htest, hcur, hcode⟩ : ∃ threads, k.threads.test semaphore = .ok threads ∧
      threads.currentThread = k.threads.currentThread ∧ threads.InCode := by
    unfold Synch.State.test
    rw [hserved, if_neg (by decide)]
    exact ⟨_, rfl, rfl, hc.1, Function.update_self _ _ _⟩
  rw [he, htest, ok_bind]
  refine ⟨_, rfl, ?_⟩
  have hcall := Function.update_self k.threads.currentThread (some k.requests) k.call
  rw [leave_eq (r := k.requests) (by rw [← hcur] at hcall; exact hcur ▸ hcall) hcode]
  exact ⟨List.mem_cons_self, fun hm =>
    Nat.lt_irrefl _ (h.numbered _ (List.mem_append_right _ hm))⟩

end State

/-- The sector a call is about. -/
def Event.sector : Event → Option Int
  | .readSector n => some n
  | .writeSector n _ => some n
  | _ => none

open State

theorem step_of_sector {k : State} {e : Event} {n : Int} (he : e.sector = some n)
    (hc : k.threads.InCode) : ∃ f, k.step e = k.transfer n f := by
  cases e with
  | readSector m => cases he; exact ⟨id, if_pos hc⟩
  | writeSector m data => cases he; exact ⟨fun _ => data, if_pos hc⟩
  | requestDone => cases he
  | other e => cases he

theorem step_of_not_inCode {k : State} {e : Event} {n : Int} (he : e.sector = some n)
    (hc : ¬ k.threads.InCode) : k.step e = .error .disabled := by
  cases e with
  | readSector m => exact if_neg hc
  | writeSector m data => exact if_neg hc
  | requestDone => cases he
  | other e => cases he

theorem alone_iff {k : State} {e : Event} {n : Int} (he : e.sector = some n) :
    k.Alone e ↔ (k.threads.InCode → ∀ t, k.call t = none) := by
  cases e <;> first | rfl | cases he

/-- As long as every call is made while no other thread is in one, no request
meets an active disk and every call returns after its interrupt. The first call
for which this is not so breaks one or the other. -/
theorem calls_serialised (value : Synch.SemPtr → Int) (sectors : Sectors) {es : List Event}
    {k : State} (hr : Run step (init value sectors) es k)
    (hg : Guarded step Alone (init value sectors) es) :
    (∀ r ∈ k.returned, r ∈ k.completed) ∧
    ∀ e (n : Int), e.sector = some n →
      (k.Alone e → k.step e ≠ .error (.assertion .diskActive)) ∧
      (¬ k.Alone e → 0 ≤ n ∧ n < numSectors → k.step e = .error (.assertion .diskActive) ∨
        ∃ k' r, k.step e = .ok k' ∧ r ∈ k'.returned ∧ r ∉ k'.completed) := by
  have hserial : k.Serial :=
    hr.guarded_inv (fun _ _ _ h ha hs => h.step ha hs) hg (init_serial value sectors)
  refine ⟨hserial.returned, fun e n he => ⟨fun ha herr => ?_, fun ha hn => ?_⟩⟩
  · have halone := (alone_iff he).mp ha
    by_cases hc : k.threads.InCode
    · obtain ⟨f, hf⟩ := step_of_sector he hc
      have hq := hserial.phase.quiet_of_none (halone hc)
      rw [hf] at herr
      exact transfer_ne_active hq.active herr
    · rw [step_of_not_inCode he hc] at herr
      cases herr
  · rw [alone_iff he, not_forall] at ha
    obtain ⟨hc, ht⟩ := ha
    obtain ⟨t, ht⟩ := not_forall.mp ht
    obtain ⟨f, hf⟩ := step_of_sector he hc
    rw [hf]
    rcases hserial.overlap hc hn ht with herr | ⟨k', hk, hret, hnot⟩
    · exact .inl herr
    · exact .inr ⟨k', _, hk, hret, hnot⟩

/-- Two threads, each with a call, one after the other. -/
theorem calls_serialised_two : ∃ k, Run step (init (fun _ => 0) fun _ _ => 0)
      ([.other (.fork 1), .readSector 7, .other .dispatch, .other (.start true), .requestDone,
        .other .yield, .other .resume, .other .yield, .other .create] ++
        [.writeSector 8 fun _ => 5, .other .dispatch, .requestDone]) k ∧
    (k.completed = [1, 0] ∧ k.returned = [0]) ∧ (∀ r ∈ k.returned, r ∈ k.completed) ∧
    (k.Alone (.readSector 9) → k.step (.readSector 9) ≠ .error (.assertion .diskActive)) := by
  have hp : continues step (init (fun _ => 0) fun _ _ => 0)
      [.other (.fork 1), .readSector 7, .other .dispatch, .other (.start true), .requestDone,
        .other .yield, .other .resume, .other .yield, .other .create]
      (fun k => decide (k.disk.active = false ∧ (k.threads.semaphore semaphore).value = 0) &&
        continues step k [.writeSector 8 fun _ => 5, .other .dispatch, .requestDone] fun k' =>
          decide (k'.completed = [1, 0] ∧ k'.returned = [0])) = true := by decide
  obtain ⟨k, hr, hk⟩ := continues_iff.mp hp
  obtain ⟨hk, hk'⟩ := Bool.and_eq_true_iff.mp hk
  obtain ⟨k', hr', hk'⟩ := continues_iff.mp hk'
  have hfirst : Guarded step Alone (init (fun _ => 0) fun _ _ => 0)
      [.other (.fork 1), .readSector 7, .other .dispatch, .other (.start true), .requestDone,
        .other .yield, .other .resume, .other .yield, .other .create] := by
    refine ⟨trivial, fun k₁ h₁ => ⟨fun _ t => ?_, ?_⟩⟩
    · cases h₁; rfl
    · simp [Guarded, Alone]
  have hsecond : Guarded step Alone k
      [.writeSector 8 fun _ => 5, .other .dispatch, .requestDone] := by
    have hserial : k.Serial :=
      hr.guarded_inv (fun _ _ _ h ha hs => h.step ha hs) hfirst (init_serial _ _)
    have hq := hserial.phase.quiet_of_value (of_decide_eq_true hk).1 (of_decide_eq_true hk).2
    exact ⟨fun _ => hq.call, by simp [Guarded, Alone]⟩
  have hg := hfirst.append fun t ht => hr.unique ht ▸ hsecond
  obtain ⟨hreturned, hcalls⟩ := calls_serialised _ _ (hr.append hr') hg
  exact ⟨k', hr.append hr', of_decide_eq_true hk', hreturned, (hcalls (.readSector 9) 9 rfl).1⟩

/-- The second thread calls while the first one waits, and the disk asserts; or
it calls after the interrupt, and returns before its own. -/
theorem calls_overlap :
    (∃ k, Run step (init (fun _ => 0) fun _ _ => 0)
      [.other (.fork 1), .readSector 7, .other .dispatch, .other (.start false)] k ∧
      k.step (.readSector 8) = .error (.assertion .diskActive)) ∧
    ∃ k, Run step (init (fun _ => 0) fun _ _ => 0)
      [.other (.fork 1), .readSector 7, .other .dispatch, .other (.start false), .requestDone,
        .readSector 8] k ∧ 1 ∈ k.returned ∧ 1 ∉ k.completed := by
  constructor
  · have hp : continues step (init (fun _ => 0) fun _ _ => 0)
        [.other (.fork 1), .readSector 7, .other .dispatch, .other (.start false)]
        (fun k => match k.step (.readSector 8) with
          | .error e => decide (e = .assertion .diskActive)
          | .ok _ => false) = true := by decide
    obtain ⟨k, hr, hk⟩ := continues_iff.mp hp
    refine ⟨k, hr, ?_⟩
    split at hk
    · rename_i e he
      rw [he, of_decide_eq_true hk]
    · cases hk
  · have hp : continues step (init (fun _ => 0) fun _ _ => 0)
        [.other (.fork 1), .readSector 7, .other .dispatch, .other (.start false), .requestDone,
          .readSector 8] (fun k => decide (1 ∈ k.returned ∧ 1 ∉ k.completed)) = true := by decide
    obtain ⟨k, hr, hk⟩ := continues_iff.mp hp
    exact ⟨k, hr, of_decide_eq_true hk⟩

end Nachos.SynchDisk

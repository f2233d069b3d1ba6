import Nachos.Userprog.Exception

/-! What the paging operations leave alone. Memory accesses, `selectPage` and
`fillPage` work on page tables, frames, the frame tables and the swap files;
they neither make nor delete an address space, and change nothing the scheduler
looks at. The last sections say what the stations of a page fault and the events
of the machine can do. -/

namespace Nachos
open Lib

/-- The part of an address space that stays as the constructor made it. -/
def AddrSpace.fixed (S : AddrSpace) : AddrSpace :=
  { S with pageTable := fun i => ⟨i, -1, false, false, false, false⟩, swapped := fun _ => false }

namespace Kernel

/-- What no paging operation touches. -/
def unpaged (k : Kernel) : Kernel :=
  { k with space := fun _ => none, memMap := fun _ => false, ipt := fun _ => none, pageList := []
           mainMemory := fun _ => 0, hostData := fun _ => [] }

structure MemoryOnly (k k' : Kernel) : Prop where
  rest : k'.unpaged = k.unpaged
  fixed : ∀ s, (k'.space s).map AddrSpace.fixed = (k.space s).map AddrSpace.fixed
  grows : ∀ i, (k.hostData i).length ≤ (k'.hostData i).length

variable {k k' k'' : Kernel} {s : SpacePtr} {S S' : AddrSpace}

theorem MemoryOnly.refl (k : Kernel) : MemoryOnly k k :=
  ⟨rfl, fun _ => rfl, fun _ => Nat.le_refl _⟩

theorem MemoryOnly.trans (h : MemoryOnly k k') (h' : MemoryOnly k' k'') : MemoryOnly k k'' :=
  ⟨h'.rest.trans h.rest, fun s => (h'.fixed s).trans (h.fixed s),
    fun i => Nat.le_trans (h.grows i) (h'.grows i)⟩

theorem MemoryOnly.isSome (h : MemoryOnly k k') (s : SpacePtr) :
    (k'.space s).isSome = (k.space s).isSome := by
  rw [← Option.isSome_map (f := AddrSpace.fixed), h.fixed, Option.isSome_map]

theorem MemoryOnly.space_of (h : MemoryOnly k k') (hS : k.space s = some S) :
    ∃ S', k'.space s = some S' ∧ S'.fixed = S.fixed := by
  have := h.fixed s
  rw [hS] at this
  obtain ⟨S', hS', he⟩ := Option.map_eq_some_iff.mp this
  exact ⟨S', hS', he⟩

theorem MemoryOnly.of_eq (hr : k'.unpaged = k.unpaged) (hs : k'.space = k.space)
    (hd : k'.hostData = k.hostData) : MemoryOnly k k' :=
  ⟨hr, fun s => by rw [hs], fun i => Nat.le_of_eq (by rw [hd])⟩

theorem memoryOnly_writeSwap (k : Kernel) (S : AddrSpace) (page f : Nat) :
    MemoryOnly k (k.writeSwap S page f) := by
  refine ⟨rfl, fun _ => rfl, fun i => ?_⟩
  unfold writeSwap
  dsimp only
  rw [Function.update_apply]
  split
  · rename_i hi
    rw [hi]
    exact length_le_writeBytes _ _ _
  · exact Nat.le_refl _

theorem memoryOnly_setSpace (hS : k.space s = some S) (hf : S'.fixed = S.fixed) :
    MemoryOnly k (k.setSpace s S') := by
  refine ⟨rfl, fun s' => ?_, fun _ => Nat.le_refl _⟩
  by_cases hs : s' = s
  · subst hs
    simp [setSpace, hS, hf]
  · simp [setSpace, Function.update_of_ne hs]

/-- A page fault of any access is one of the address. -/
theorem faults_of_exception {addr : BitVec 32} {width : Width} {writing : Bool}
    (h : k.translate addr width writing = .ok (.exception .pageFault)) : k.Faults addr := by
  unfold translate at h
  split at h
  · cases h
  · rename_i s S htab
    have h := Except.ok.inj h
    unfold Nachos.translate TranslationEntry.access at h
    repeat' split at h
    all_goals cases h
    rename_i hlt hv
    exact ⟨s, S, htab, Nat.not_le.mp hlt, by simpa using hv⟩

/-- `Faults` is what `Translate` says of a byte access. -/
theorem faults_iff {addr : BitVec 32} {writing : Bool} :
    k.Faults addr ↔ k.translate addr .byte writing = .ok (.exception .pageFault) := by
  constructor
  · intro ⟨s, S, htab, hlt, hv⟩
    have halign : ¬ addr.toNat % Width.byte.size ≠ 0 := by simp [Width.size, Nat.mod_one]
    unfold translate
    rw [htab]
    dsimp only
    rw [Nachos.translate, if_neg halign, if_neg (Nat.not_le.mpr hlt), hv]
    rfl
  · exact faults_of_exception

theorem memoryOnly_setEntry (k : Kernel) (addr : BitVec 32) (e : TranslationEntry) :
    MemoryOnly k (k.setEntry addr e) := by
  unfold setEntry
  split
  · exact .refl k
  · rename_i s S h
    exact memoryOnly_setSpace (machineTable_eq_ok.mp h).2 rfl

/-- An access sets an entry that `Translate` found, and may store bytes. -/
theorem access_eq_ok {a : Access} (h : k.access a = .ok k') :
    ∃ addr width writing physAddr entry mem,
      k.translate addr width writing = .ok (.mapped physAddr entry) ∧
      k' = { k.setEntry addr entry with mainMemory := mem } := by
  cases a with
  | read addr width =>
    simp only [access] at h
    split at h
    · rename_i physAddr entry htr
      cases h
      exact ⟨addr, width, false, physAddr, entry, _, htr, rfl⟩
    · cases h
    · cases h
  | write addr width value =>
    simp only [access] at h
    split at h
    · rename_i physAddr entry htr
      cases h
      exact ⟨addr, width, true, physAddr, entry, _, htr, rfl⟩
    · cases h
    · cases h

theorem access_memoryOnly {a : Access} (h : k.access a = .ok k') : MemoryOnly k k' := by
  obtain ⟨addr, _, _, _, entry, mem, -, rfl⟩ := access_eq_ok h
  exact (memoryOnly_setEntry k addr entry).trans (.of_eq rfl rfl rfl)

theorem accesses_memoryOnly {as : List Access} (h : as.foldlM access k = .ok k') :
    MemoryOnly k k' := by
  induction as generalizing k with
  | nil => cases h; exact .refl _
  | cons a as ih =>
    obtain ⟨k1, h1, h2⟩ := bind_eq_ok.mp h
    exact (access_memoryOnly h1).trans (ih h2)

/-- `Swapout` finds the page that is mapped to the frame, saves it if it is dirty
and puts it out. -/
theorem swapout_cases {f : Nat} (h : k.swapout s f = .ok k') :
    ∃ S page, k.space s = some S ∧ S.pageOf f = some page ∧
      k' = (if (S.pageTable page).dirty then k.writeSwap S page f else k).setSpace s
        (S.setEvicted page) := by
  unfold swapout at h
  split at h
  · cases h
  · rename_i S hS
    split at h
    · cases h
    · rename_i page hpage
      cases h
      exact ⟨S, page, hS, hpage, rfl⟩

theorem swapout_memoryOnly {f : Nat} (h : k.swapout s f = .ok k') : MemoryOnly k k' := by
  obtain ⟨S, page, hS, -, rfl⟩ := swapout_cases h
  split
  · exact (k.memoryOnly_writeSwap S page f).trans
      (memoryOnly_setSpace (S := S) (by exact hS) rfl)
  · exact memoryOnly_setSpace hS rfl

theorem find_lt {f : Nat} (h : k.find = some f) : f < numPhysPages ∧ k.memMap f = false := by
  have hmem := List.mem_of_find?_eq_some h
  have hp := List.find?_some h
  exact ⟨by simpa using hmem, by simpa using hp⟩

/-- FIFO takes the front off the list, random replacement leaves everything as
it is; with no scheme there is no victim. -/
theorem victim_cases {random f : Nat} (h : k.victim random = .ok (f, k')) :
    k.swapChoice = 1 ∧ f = k.pageList.headD 0 ∧ k' = { k with pageList := k.pageList.tail } ∨
      k.swapChoice = 2 ∧ f = random % 32 ∧ k' = k := by
  unfold victim at h
  split at h
  · rename_i hfifo
    cases h
    exact .inl ⟨hfifo, rfl, rfl⟩
  · split at h
    · rename_i hrandom
      cases h
      exact .inr ⟨hrandom, rfl, rfl⟩
    · cases h

theorem victim_memoryOnly {random f : Nat} (h : k.victim random = .ok (f, k')) :
    MemoryOnly k k' := by
  rcases victim_cases h with ⟨-, -, rfl⟩ | ⟨-, -, rfl⟩
  · exact .of_eq rfl rfl rfl
  · exact .refl _

theorem owner_eq_ok {f : Nat} (h : k.owner f = .ok s) :
    f < numPhysPages ∧ ∃ t, k.ipt f = some t ∧ k.spaceOf t = some s := by
  unfold owner at h
  split at h
  · rename_i hf
    split at h
    · cases h
    · rename_i s' hs
      cases h
      exact ⟨hf, Option.bind_eq_some_iff.mp hs⟩
  · cases h

/-- A frame is selected: the first free one, or else the victim's, once it has
been swapped out of the space its owner points to. -/
theorem selectPage_cases {random f : Nat} (h : k.selectPage random = .ok (f, k')) :
    (k.find = some f ∧ k' = k.mark f) ∨
    (k.find = none ∧ ∃ k1 s, k.victim random = .ok (f, k1) ∧ k1.owner f = .ok s ∧
      k1.swapout s f = .ok k') := by
  unfold selectPage at h
  split at h
  · rename_i frame hf
    cases h
    exact .inl ⟨hf, rfl⟩
  · rename_i hn
    obtain ⟨⟨f1, k1⟩, h1, h⟩ := bind_eq_ok.mp h
    obtain ⟨s, h2, h⟩ := bind_eq_ok.mp h
    obtain ⟨k2, h3, h⟩ := bind_eq_ok.mp h
    cases h
    exact .inr ⟨hn, k1, s, h1, h2, h3⟩

theorem selectPage_memoryOnly {random f : Nat} (h : k.selectPage random = .ok (f, k')) :
    MemoryOnly k k' ∧ f < numPhysPages := by
  rcases selectPage_cases h with ⟨hf, rfl⟩ | ⟨-, k1, s, hv, ho, hs⟩
  · exact ⟨.of_eq rfl rfl rfl, (find_lt hf).1⟩
  · exact ⟨(victim_memoryOnly hv).trans (swapout_memoryOnly hs), (owner_eq_ok ho).1⟩

/-- The page is in range, and the frame is filled by one of two branches. -/
theorem fillPage_cases {v : Int} {f : Nat} (h : k.fillPage s v f = .ok k') :
    ∃ S S1 k1, k.space s = some S ∧ 0 ≤ v ∧ v < S.numPages ∧
      S1 = S.setEntry v.toNat (fun e => { e with physicalPage := f }) ∧
      k1 = { k with ipt := Function.update k.ipt f (some k.currentThread) } ∧
      (S.swapped v.toNat = true ∧ k' = k1.swapin s S1 v.toNat f ∨
        S.swapped v.toNat = false ∧ k1.loadImage s S1 v.toNat f = .ok k') := by
  unfold fillPage at h
  split at h
  · cases h
  · rename_i S hS
    split at h
    · rename_i hv
      refine ⟨S, _, _, hS, hv.1, hv.2, rfl, rfl, ?_⟩
      dsimp only at h
      split at h
      · rename_i hsw
        cases h
        exact .inl ⟨hsw, rfl⟩
      · rename_i hsw
        exact .inr ⟨by simpa [AddrSpace.setEntry] using hsw, h⟩
    · cases h

theorem fillPage_memoryOnly {v : Int} {f : Nat} (h : k.fillPage s v f = .ok k') :
    MemoryOnly k k' := by
  obtain ⟨S, S1, k1, hS, -, -, hS1, hk1, hbranch⟩ := fillPage_cases h
  have h1 : MemoryOnly k k1 := by rw [hk1]; exact .of_eq rfl rfl rfl
  have hS' : k1.space s = some S := by rw [hk1]; exact hS
  rcases hbranch with ⟨-, rfl⟩ | ⟨-, h⟩
  · refine h1.trans ((memoryOnly_setSpace hS' ?_).trans (.of_eq rfl rfl rfl))
    rw [hS1]
    split <;> rfl
  · unfold loadImage at h
    obtain ⟨mem, -, h⟩ := bind_eq_ok.mp h
    cases h
    have hmem : MemoryOnly k1 { k1 with mainMemory := mem } := .of_eq rfl rfl rfl
    have hw := hmem.trans ({ k1 with mainMemory := mem }.memoryOnly_writeSwap S1 v.toNat f)
    refine h1.trans (hw.trans (memoryOnly_setSpace (S := S) (by exact hS') ?_))
    rw [hS1]
    rfl

/-- Under FIFO the frame is filled behind its page lock, which must be free. -/
theorem loadPage_cases {addr : BitVec 32} {random : Nat} (h : k.loadPage s addr random = .ok k') :
    ∃ f k1, k.selectPage random = .ok (f, k1) ∧
      ((k.swapChoice = 1 ∧ (k1.pageLock f).value ≠ 0 ∧ ∃ k2,
          ((k1.appendPage f).lockTake f).fillPage s (pageOfAddr addr) f = .ok k2 ∧
          k' = k2.lockV f) ∨
        (k.swapChoice ≠ 1 ∧ k1.fillPage s (pageOfAddr addr) f = .ok k')) := by
  unfold loadPage at h
  obtain ⟨⟨f, k1⟩, hsel, h⟩ := bind_eq_ok.mp h
  refine ⟨f, k1, hsel, ?_⟩
  split at h
  · rename_i hfifo
    obtain ⟨hfree, h⟩ := ite_error_left_eq_ok.mp h
    obtain ⟨k2, hfill, h⟩ := bind_eq_ok.mp h
    cases h
    exact .inl ⟨hfifo, hfree, k2, hfill, rfl⟩
  · rename_i hfifo
    exact .inr ⟨hfifo, h⟩

/-! ## The stations of a page fault -/

theorem currentSpace_eq_ok {s : SpacePtr} (h : k.currentSpace = .ok s) :
    k.spaceOf k.currentThread = some s := by
  unfold currentSpace at h
  split at h
  · cases h
  · cases h; assumption

/-- With FIFO replacement a fault goes on to its page lock, otherwise the page
is filled at once. -/
theorem pageFault_cases {addr : BitVec 32} {random : Nat} (h : k.pageFault addr random = .ok k') :
    ∃ s f k1, k.spaceOf k.currentThread = some s ∧ (k.raise addr).selectPage random = .ok (f, k1) ∧
      ((k.swapChoice = 1 ∧ k' = (k1.appendPage f).goTo
          (.locking (pageOfAddr addr) f (k.here = .call))) ∨
        (k.swapChoice ≠ 1 ∧ k1.fillPage s (pageOfAddr addr) f = .ok k')) := by
  unfold pageFault at h
  obtain ⟨s, hs, h⟩ := bind_eq_ok.mp h
  obtain ⟨⟨f, k1⟩, hsel, h⟩ := bind_eq_ok.mp h
  refine ⟨s, f, k1, currentSpace_eq_ok hs, hsel, ?_⟩
  split at h
  · rename_i hfifo
    cases h
    exact .inl ⟨hfifo, rfl⟩
  · rename_i hfifo
    exact .inr ⟨hfifo, h⟩

theorem lock_cases {fire : Bool} {n : Next} (h : k.lock fire = .ok (k', n)) :
    ∃ v f c, k.here = .locking v f c ∧ ((k' = k.lockWait f ∧ n = .sleep) ∨
      (k' = (k.lockTake f).goTo (.locked v f c) ∧ n = .tick fire)) := by
  unfold lock at h
  split at h
  · rename_i v f c hhere
    refine ⟨v, f, c, hhere, ?_⟩
    split at h
    · cases h
      exact .inl ⟨rfl, rfl⟩
    · cases h
      exact .inr ⟨rfl, rfl⟩
  · cases h

theorem load_cases {fire : Bool} {n : Next} (h : k.load fire = .ok (k', n)) :
    ∃ v f c s k1, k.here = .locked v f c ∧ k.spaceOf k.currentThread = some s ∧
      k.fillPage s v f = .ok k1 ∧ k' = (k1.lockV f).goTo (back c) ∧ n = .tick fire := by
  unfold load at h
  split at h
  · rename_i v f c hhere
    obtain ⟨s, hs, h⟩ := bind_eq_ok.mp h
    obtain ⟨k1, hfill, h⟩ := bind_eq_ok.mp h
    cases h
    exact ⟨v, f, c, s, k1, hhere, currentSpace_eq_ok hs, hfill, rfl, rfl⟩
  · cases h

/-! ## Events -/

/-- What an event does to `k`, and where the running thread must be for it. -/
inductive Acts (k : Kernel) : Event → Kernel → Next → Prop
  | instr {accesses : List Access} {registers : Registers} {k1 : Kernel}
      (user : k.here = .user) (made : accesses.foldlM access k = .ok k1) :
      Acts k (.instr accesses registers) { k1 with registers := registers } .stay
  | tick {fire : Bool} (ticks : k.here.ticks) : Acts k (.tick fire) k (.tick fire)
  | fault {addr : BitVec 32} {random : Nat} {k1 : Kernel} (user : k.atUser)
      (faults : k.Faults addr) (served : k.pageFault addr random = .ok k1) :
      Acts k (.fault addr random) k1 .stay
  | lock {fire : Bool} {k1 : Kernel} {n : Next} (locks : k.lock fire = .ok (k1, n)) :
      Acts k (.lock fire) k1 n
  | load {fire : Bool} {k1 : Kernel} {n : Next} (loads : k.load fire = .ok (k1, n)) :
      Acts k (.load fire) k1 n
  | trap (user : k.here = .user) : Acts k .trap k.trap .stay
  | copy {a : Access} {k1 : Kernel} (call : k.here = .call) (made : k.access a = .ok k1) :
      Acts k (.copy a) k1 .stay
  | ret {result : Option (BitVec 32)} (call : k.here = .call) :
      Acts k (.ret result) (((result.map (k.writeRegister 2)).getD k).goTo .user) .stay
  | exec {filename : FileName} {junk : Nat → Bool} {fire : Bool} {k1 : Kernel} {n : Next}
      (call : k.here = .call) (made : (k.goTo .user).exec filename junk fire = .ok (k1, n)) :
      Acts k (.exec filename junk fire) k1 n
  | join {k1 : Kernel} {n : Next} (call : k.here = .call)
      (made : (k.goTo .user).join = (k1, n)) : Acts k .join k1 n
  | yield (call : k.here = .call) : Acts k .yield (k.goTo .user) .yield
  | exit {k1 : Kernel} (call : k.here = .call) (ended : k.terminate = .ok k1) :
      Acts k .exit k1 .sleep
  | fatal {addr : BitVec 32} {merged : Bool} {k1 : Kernel} (user : k.atUser)
      (ended : (k.raise addr).terminate = .ok k1) : Acts k (.fatal addr merged) k1 .sleep
  | enable {fire : Bool} (root : k.here = .threadRoot) :
      Acts k (.enable fire) (k.goTo .enabled) (.tick fire)
  | create {k1 : Kernel} (enabled : k.here = .enabled) (made : k.create = .ok k1) :
      Acts k .create (k1.goTo .user) .stay

theorem acts_of_act {e : Event} {n : Next} (h : k.act e = .ok (k', n)) : k.Acts e k' n := by
  cases e with
  | instr accesses registers =>
    obtain ⟨hu, h⟩ := ite_error_eq_ok.mp h
    obtain ⟨k1, h1, h⟩ := bind_eq_ok.mp h
    cases h
    exact .instr hu h1
  | tick fire =>
    obtain ⟨hu, h⟩ := ite_error_eq_ok.mp h
    cases h
    exact .tick hu
  | fault addr random =>
    obtain ⟨⟨hu, hflt⟩, h⟩ := ite_error_eq_ok.mp h
    obtain ⟨k1, h1, h⟩ := bind_eq_ok.mp h
    cases h
    exact .fault hu hflt h1
  | lock fire => exact .lock h
  | load fire => exact .load h
  | trap =>
    obtain ⟨hu, h⟩ := ite_error_eq_ok.mp h
    cases h
    exact .trap hu
  | copy a =>
    obtain ⟨hc, h⟩ := ite_error_eq_ok.mp h
    obtain ⟨k1, h1, h⟩ := bind_eq_ok.mp h
    cases h
    exact .copy hc h1
  | ret result =>
    obtain ⟨hc, h⟩ := ite_error_eq_ok.mp h
    cases h
    exact .ret hc
  | exec filename junk fire =>
    obtain ⟨hc, h⟩ := ite_error_eq_ok.mp h
    exact .exec hc h
  | join =>
    obtain ⟨hc, h⟩ := ite_error_eq_ok.mp h
    exact .join hc (Except.ok.inj h)
  | yield =>
    obtain ⟨hc, h⟩ := ite_error_eq_ok.mp h
    cases h
    exact .yield hc
  | exit =>
    obtain ⟨hc, h⟩ := ite_error_eq_ok.mp h
    obtain ⟨k1, h1, h⟩ := bind_eq_ok.mp h
    cases h
    exact .exit hc h1
  | fatal addr merged =>
    obtain ⟨hu, h⟩ := ite_error_eq_ok.mp h
    obtain ⟨-, h⟩ := ite_error_left_eq_ok.mp h
    obtain ⟨k1, h1, h⟩ := bind_eq_ok.mp h
    cases h
    exact .fatal hu h1
  | enable fire =>
    obtain ⟨hroot, h⟩ := ite_error_eq_ok.mp h
    cases h
    exact .enable hroot
  | create =>
    obtain ⟨hen, h⟩ := ite_error_eq_ok.mp h
    obtain ⟨k1, h1, h⟩ := bind_eq_ok.mp h
    cases h
    exact .create hen h1

end Kernel
end Nachos

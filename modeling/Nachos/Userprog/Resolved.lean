import Nachos.Userprog.Preemption

/-! Whether a page fault is over when `loadPage` returns. The page becomes valid
unless its `swapped` flag sends `loadPage` to the swap file and the page is not
there; then the entry is left invalid, with a frame. The flags are set by nobody
but the allocator of the array they are in. -/

namespace Nachos
open Lib
namespace Kernel

/-- No access to `addr` raises a page fault. -/
def Resolved (k : Kernel) (addr : BitVec 32) : Prop :=
  ∀ width writing, k.translate addr width writing ≠ .ok (.exception .pageFault)

/-- The frame that a fault takes if memory is full. -/
def Chooses (k : Kernel) (random f : Nat) : Prop :=
  k.swapChoice = 1 ∧ f = k.pageList.headD 0 ∨ k.swapChoice = 2 ∧ f = random % 32

/-- Memory is full, and a fault takes its frame from page `p` of space `s`. -/
def Evicts (k : Kernel) (random : Nat) (s : SpacePtr) (S : AddrSpace) (p : Nat) : Prop :=
  k.find = none ∧ ∃ f, k.Chooses random f ∧ k.owner f = .ok s ∧ k.space s = some S ∧
    S.pageOf f = some p

/-- What a fault on page `v` of space `s` needs: the page is not to be read from
the swap file, or all of it is there. If memory is full, the page that is evicted
may be this one, through the frame of an earlier fault, whose flag is cleared
then; or it may be saved to the same file, at this page or behind it. -/
def Findable (k : Kernel) (random : Nat) (s : SpacePtr) (S : AddrSpace) (v : Nat) : Prop :=
  k.Whole S v ∨ ∃ s' S' p, k.Evicts random s' S' p ∧
    (s' = s ∧ p = v ∨ (S'.pageTable p).dirty = true ∧ S'.swapFile = S.swapFile ∧ v ≤ p)

variable {k k' k1 : Kernel} {s : SpacePtr} {S : AddrSpace} {v f random : Nat} {addr : BitVec 32}

theorem Chooses.unique {f' : Nat} (h : k.Chooses random f) (h' : k.Chooses random f') : f = f' := by
  unfold Chooses at h h'
  omega

theorem resolved_iff : k.Resolved addr ↔ ¬ k.Faults addr := by
  constructor
  · intro h hf
    exact h .byte false (faults_iff.mp hf)
  · intro h width writing hf
    exact h (faults_of_exception hf)

/-- What a fault is about, in the frame tables. -/
theorem faults_iff_place (hpt : k.pageTable = some s) (hS : k.space s = some S)
    (hsize : k.pageTableSize = S.numPages) :
    k.Faults addr ↔ ∃ p, k.frames.place s (vpnOf addr) = some p ∧ p.valid = false := by
  have htab : k.machineTable = .ok (s, S) := machineTable_eq_ok.mpr ⟨hpt, hS⟩
  constructor
  · intro ⟨s', S', htab', hlt, hv⟩
    rw [htab] at htab'
    cases htab'
    rw [hsize] at hlt
    exact ⟨_, frames_place.mpr ⟨S, hS, AddrSpace.place_eq_some.mpr ⟨hlt, rfl⟩⟩, hv⟩
  · intro ⟨p, hp, hv⟩
    obtain ⟨S', hS', hp⟩ := frames_place.mp hp
    cases hS.symm.trans hS'
    obtain ⟨hlt, rfl⟩ := AddrSpace.place_eq_some.mp hp
    exact ⟨s, S, htab, hsize ▸ hlt, hv⟩

/-! ## The choice of the frame -/

theorem whole_iff : k.Whole S v ↔
    (S.swapped v = true → v * pageSize + pageSize ≤ (k.hostData S.swapFile).length) := by
  unfold Whole
  rw [readBytes_length_eq _ _ (by decide)]

theorem frameBytes_length (mem : Nat → UInt8) (f : Nat) :
    (frameBytes mem f).length = pageSize := by
  rw [frameBytes, List.length_map, List.length_range]

/-- How long a swap file is after a page has been saved to one. -/
theorem writeSwap_length (k : Kernel) (S' : AddrSpace) (p f : Nat) (i : Inode) :
    ((k.writeSwap S' p f).hostData i).length =
      if i = S'.swapFile then max (k.hostData i).length (p * pageSize + pageSize)
      else (k.hostData i).length := by
  unfold writeSwap
  dsimp only
  rw [Function.update_apply]
  split
  · rename_i hi
    rw [hi, writeBytes_length, frameBytes_length]
  · rfl

/-- An eviction leaves another page's flag as it is, and clears that of its own;
it makes the page's swap file long enough if it saves a page far enough in it. -/
theorem swapout_whole {s' : SpacePtr} {S' : AddrSpace} {p : Nat} (hS : k.space s = some S)
    (hS' : k.space s' = some S')
    (hk : k' = (if (S'.pageTable p).dirty then k.writeSwap S' p f else k).setSpace s'
      (S'.setEvicted p)) :
    ∃ S1, k'.space s = some S1 ∧
      ((S.pageTable v).valid = false → (S1.pageTable v).valid = false) ∧
      (k'.Whole S1 v ↔ k.Whole S v ∨ s' = s ∧ p = v ∨
        (S'.pageTable p).dirty = true ∧ S'.swapFile = S.swapFile ∧ v ≤ p) := by
  have hfile : (v * pageSize + pageSize ≤ (k'.hostData S.swapFile).length) ↔
      v * pageSize + pageSize ≤ (k.hostData S.swapFile).length ∨
        (S'.pageTable p).dirty = true ∧ S'.swapFile = S.swapFile ∧ v ≤ p := by
    have hlen : (k'.hostData S.swapFile).length = if (S'.pageTable p).dirty then
        ((k.writeSwap S' p f).hostData S.swapFile).length else (k.hostData S.swapFile).length := by
      rw [hk]
      split <;> rfl
    rw [hlen]
    cases hd : (S'.pageTable p).dirty with
    | false => simp
    | true =>
      rw [if_pos rfl, writeSwap_length]
      by_cases hi : S.swapFile = S'.swapFile
      · rw [if_pos hi]
        simp only [hi, pageSize, true_and]
        omega
      · rw [if_neg hi]
        simp [Ne.symm hi]
  have hspace : k'.space = Function.update k.space s' (some (S'.setEvicted p)) := by
    rw [hk]
    split <;> rfl
  by_cases hs : s' = s
  · subst hs
    cases hS.symm.trans hS'
    refine ⟨S.setEvicted p, by rw [hspace, Function.update_self], fun hv => ?_, ?_⟩
    · by_cases hp : v = p
      · simp [AddrSpace.setEvicted, AddrSpace.setEntry, AddrSpace.setSwapped, hp]
      · simp [AddrSpace.setEvicted, AddrSpace.setEntry, AddrSpace.setSwapped, hp, hv]
    · have hflag : (S.setEvicted p).swapped v = true ↔ S.swapped v = true ∧ p ≠ v := by
        by_cases hp : v = p
        · simp [AddrSpace.setEvicted, AddrSpace.setSwapped, hp]
        · simp [AddrSpace.setEvicted, AddrSpace.setSwapped, AddrSpace.setEntry, hp, Ne.symm hp]
      rw [whole_iff, whole_iff, hflag]
      change (_ → v * pageSize + pageSize ≤ (k'.hostData S.swapFile).length) ↔ _
      rw [hfile]
      by_cases hsw : S.swapped v = true ∧ p ≠ v
      · simp [hsw]
      · rw [not_and_not_right] at hsw
        exact iff_of_true (fun h => absurd (hsw h.1) h.2)
          (or_iff_not_imp_left.mpr fun h => .inl ⟨rfl, hsw (Classical.not_imp.mp h).1⟩)
  · refine ⟨S, by rw [hspace, Function.update_of_ne (Ne.symm hs)]; exact hS, id, ?_⟩
    rw [whole_iff, whole_iff, hfile]
    by_cases hsw : S.swapped v = true
    · simp [hsw, hs]
    · simp [hsw]

theorem selectPage_whole (hS : k.space s = some S) (h : k.selectPage random = .ok (f, k1)) :
    ∃ S1, k1.space s = some S1 ∧
      ((S.pageTable v).valid = false → (S1.pageTable v).valid = false) ∧
      (k1.Whole S1 v ↔ k.Findable random s S v) := by
  rcases selectPage_cases h with ⟨hfind, rfl⟩ | ⟨hfull, k2, s', hv, ho, hs⟩
  · refine ⟨S, hS, id, Or.inl, fun hF => hF.resolve_right ?_⟩
    intro ⟨s', S', p, hE, _⟩
    rw [hE.1] at hfind
    cases hfind
  · have hsame : k2.owner f = k.owner f ∧ k2.space = k.space ∧ k2.hostData = k.hostData := by
      rcases victim_cases hv with ⟨-, -, rfl⟩ | ⟨-, -, rfl⟩
      · exact ⟨rfl, rfl, rfl⟩
      · exact ⟨rfl, rfl, rfl⟩
    obtain ⟨S', p, hS', hp, hk1⟩ := swapout_cases hs
    obtain ⟨S1, hS1, hvalid, hwhole⟩ :=
      swapout_whole (v := v) (by rw [hsame.2.1]; exact hS) hS' hk1
    have hf : k.Chooses random f :=
      (victim_cases hv).imp (fun h => ⟨h.1, h.2.1⟩) fun h => ⟨h.1, h.2.1⟩
    have hE : k.Evicts random s' S' p := ⟨hfull, f, hf, hsame.1 ▸ ho, hsame.2.1 ▸ hS', hp⟩
    have hsamewhole : k2.Whole S v ↔ k.Whole S v := by
      unfold Whole
      rw [hsame.2.2]
    refine ⟨S1, hS1, hvalid, hwhole.trans ?_⟩
    rw [hsamewhole]
    constructor
    · exact Or.imp_right fun h => ⟨s', S', p, hE, h⟩
    · refine Or.imp_right fun ⟨s'', S'', p', hE', h⟩ => ?_
      obtain ⟨-, f', hf', ho', hS'', hp'⟩ := hE'
      obtain rfl := hf.unique hf'
      cases ho'.symm.trans (hsame.1 ▸ ho)
      cases hS''.symm.trans (hsame.2.1 ▸ hS')
      cases hp.symm.trans hp'
      exact h

/-! ## The end of the fault -/

theorem fillPage_valid {w : Int} (h : k.fillPage s w f = .ok k') (hS : k.space s = some S) :
    ∃ p, k'.frames.place s w.toNat = some p ∧
      (p.valid = true ↔ k.Whole S w.toNat ∨ (S.pageTable w.toNat).valid = true) := by
  obtain ⟨S', valid, hS', -, hk', hvalid, -⟩ := fillPage_frames h
  cases hS.symm.trans hS'
  refine ⟨⟨f, valid, S.swapped w.toNat⟩, ?_, hvalid⟩
  have hplace := congrFun (congrFun (congrArg FrameTable.place hk') s) w.toNat
  rw [hplace]
  simp [FrameTable.setPlace]

/-- The frame tables tell whether a fault is over, as long as the machine has the
page table of the thread that had it. -/
theorem AtHome.resolved_iff_valid {p : Place} (ha : k.AtHome)
    (hs : k.spaceOf k.currentThread = some s) (hpt : k'.pageTable = k.pageTable)
    (hsize : k'.pageTableSize = k.pageTableSize)
    (hfixed : (k'.space s).map AddrSpace.fixed = (k.space s).map AddrSpace.fixed)
    (hp : k'.frames.place s (vpnOf addr) = some p) : k'.Resolved addr ↔ p.valid = true := by
  obtain ⟨s', S, hs', hpt₀, hS, hsize₀⟩ := ha.table
  cases hs.symm.trans hs'
  rw [hS] at hfixed
  obtain ⟨S', hS', hfixed⟩ := Option.map_eq_some_iff.mp hfixed
  have hnum : S'.numPages = S.numPages := (congrArg AddrSpace.numPages hfixed :)
  rw [resolved_iff, faults_iff_place (hpt.trans hpt₀) hS' (by rw [hsize, hsize₀, hnum])]
  constructor
  · intro hno
    cases hvalid : p.valid with
    | true => rfl
    | false => exact absurd ⟨p, hp, hvalid⟩ hno
  · intro hyes ⟨p', hp', hno⟩
    cases hp.symm.trans hp'
    rw [hyes] at hno
    cases hno

/-- A fault that is served is over exactly if its page could be found. -/
theorem loadPage_resolved (hi : k.Inv) (hz : k.Sized) (hu : k.atUser) (hf : k.Faults addr)
    (hs : k.spaceOf k.currentThread = some s) (hS : k.space s = some S)
    (h : (k.raise addr).loadPage s addr random = .ok k') :
    k'.Resolved addr ↔ k.Findable random s S (vpnOf addr) := by
  have ha : k.AtHome := hi.atHome_of_atUser hu
  obtain ⟨s', S', hs', hS', hpage, -, hinvalid⟩ := hf.page hz ha
  cases hs.symm.trans hs'
  cases hS.symm.trans hS'
  have hw : (pageOfAddr addr).toNat = vpnOf addr := by rw [hpage, Int.toNat_natCast]
  obtain ⟨f, k1, hsel, hbranch⟩ := loadPage_cases h
  obtain ⟨S1, hS1, hvalid, hwhole⟩ :=
    selectPage_whole (k := k.raise addr) (v := vpnOf addr) hS hsel
  -- under either policy the frame is filled, by the page that was out of memory
  have hfilled : ∃ p, k'.frames.place s (vpnOf addr) = some p ∧
      (p.valid = true ↔ k1.Whole S1 (vpnOf addr) ∨ (S1.pageTable (vpnOf addr)).valid = true) := by
    rw [← hw]
    rcases hbranch with ⟨-, -, k2, hfill, rfl⟩ | ⟨-, hfill⟩
    · obtain ⟨st, r, l, hV⟩ := k2.lockV_eq f
      obtain ⟨p, hp, hiff⟩ := fillPage_valid hfill hS1
      rw [hV]
      exact ⟨p, hp, hiff⟩
    · exact fillPage_valid hfill hS1
  obtain ⟨p, hp, hiff⟩ := hfilled
  obtain ⟨st, r, l, hrest⟩ := loadPage_unpaged h
  have hpt : k'.pageTable = k.pageTable := (congrArg Kernel.pageTable hrest :)
  have hsize : k'.pageTableSize = k.pageTableSize := (congrArg Kernel.pageTableSize hrest :)
  rw [ha.resolved_iff_valid hs hpt hsize (loadPage_fixed h s) hp, hiff, hvalid hinvalid,
    or_iff_left (by simp)]
  exact hwhole

/-- The same for a fault that lost the CPU in the page lock: what counts is the
state in which it goes on. -/
theorem load_resolved {w : Int} {c fire : Bool} {n : Next} (hi : k.Inv)
    (hhere : k.here = .locked w f c) (hs : k.spaceOf k.currentThread = some s)
    (hS : k.space s = some S) (hw : w = vpnOf addr) (h : k.load fire = .ok (k', n)) :
    k'.Resolved addr ↔ k.Whole S (vpnOf addr) ∨ (S.pageTable (vpnOf addr)).valid = true := by
  have hboot : ¬ k.here.Booting := by
    rw [hhere]
    exact fun h => h.elim nofun nofun
  have hloc := load_local h
  have hpt : k'.pageTable = k.pageTable := (congrArg Kernel.pageTable hloc.rest :)
  have hsize : k'.pageTableSize = k.pageTableSize := (congrArg Kernel.pageTableSize hloc.rest :)
  obtain ⟨w', f', c', s', k1, hhere', hs', hfill, rfl, -⟩ := load_cases h
  cases hhere.symm.trans hhere'
  cases hs.symm.trans hs'
  obtain ⟨p, hp, hiff⟩ := fillPage_valid hfill hS
  have hw' : w.toNat = vpnOf addr := by rw [hw, Int.toNat_natCast]
  rw [hw'] at hp hiff
  obtain ⟨st, r, l, hV⟩ := k1.lockV_eq f
  have hp' : ((k1.lockV f).goTo (back c)).frames.place s (vpnOf addr) = some p := by
    rw [hV]
    exact hp
  exact ((hi.atHome hboot).resolved_iff_valid hs hpt hsize (hloc.fixed s) hp').trans hiff

/-! ## Whole runs -/

theorem run_sized {c : Config} {k0 : Kernel} {es : List Event} (hboot : boot c = .ok k0)
    (hrun : Run step k0 es k) : k.Inv ∧ k.Sized := by
  refine hrun.inv (I := fun k => k.Inv ∧ k.Sized) ?_ ⟨boot_inv hboot, boot_sized hboot⟩
  exact fun k e k' h hs => ⟨step_inv h.1 hs, h.2.step h.1 hs⟩

/-- In every state, a page fault that is served is over exactly if its page could
be found; so is one that gets its page lock in that state. Along a run in which
every constructor finds its array of flags clear, every page can be found in every
state, and one that is not in memory has no frame. -/
theorem fault_resolved_iff {c : Config} {k0 : Kernel} {es : List Event} (hboot : boot c = .ok k0)
    (hrun : Run step k0 es k) :
    (∀ s S addr random k', k.atUser → k.Faults addr → k.spaceOf k.currentThread = some s →
      k.space s = some S → (k.raise addr).loadPage s addr random = .ok k' →
      (k'.Resolved addr ↔ k.Findable random s S (vpnOf addr))) ∧
    (∀ s S addr f inCall fire k' n, k.here = .locked (vpnOf addr) f inCall →
      k.spaceOf k.currentThread = some s → k.space s = some S →
      k.act (.load fire) = .ok (k', n) →
      (k'.Resolved addr ↔ k.Whole S (vpnOf addr) ∨ (S.pageTable (vpnOf addr)).valid = true)) ∧
    ((∀ v, c.junk v = false) → (∀ e ∈ es, e.Clear) → ∀ s S v, k.space s = some S →
      v < S.numPages → k.Whole S v ∧
        ((S.pageTable v).valid = false → (S.pageTable v).physicalPage = -1)) := by
  obtain ⟨hi, hz⟩ := run_sized hboot hrun
  refine ⟨?_, ?_, ?_⟩
  · intro s S addr random k' hu hf hs hS h
    exact loadPage_resolved hi hz hu hf hs hS h
  · intro s S addr f inCall fire k' n hhere hs hS h
    exact load_resolved hi hhere hs hS rfl h
  · intro hj hes s S v hS hv
    obtain ⟨hk, hu⟩ := run_unswapped hboot hj hes hrun
    have hp := frames_place.mpr ⟨S, hS, AddrSpace.place_eq_some.mpr ⟨hv, rfl⟩⟩
    have hflag : S.swapped v = false := hu hp
    refine ⟨fun hsw => ?_, fun hinvalid => ?_⟩
    · rw [hflag] at hsw
      cases hsw
    · rcases hk.frames.places hp with ho | ⟨f, hin⟩
      · exact ho.1
      · exact absurd (hin.2.symm.trans hinvalid) (by decide)

/-- The first instruction of the sample: its page is found, the flags being clear. -/
theorem fault_resolved_first : ∃ k0 k' : Kernel, boot (.sample 1) = .ok k0 ∧ k0.Faults 0 ∧
    (k0.raise 0).loadPage 0 0 0 = .ok k' ∧ k'.Resolved 0 := by
  have hdemo : (Config.sample 1).boots (fun k => decide (k.atUser ∧ k.Faults 0) &&
      decide (k.spaceOf k.currentThread = some 0) && ((k.raise 0).loadPage 0 0 0).isOk) = true := by
    decide +kernel
  obtain ⟨k0, hboot, hp⟩ := Config.boots_iff.mp hdemo
  simp only [Bool.and_eq_true, decide_eq_true_eq] at hp
  obtain ⟨⟨⟨hu, hf⟩, hs⟩, hload⟩ := hp
  cases h : (k0.raise 0).loadPage 0 0 0 with
  | error e => rw [h] at hload; cases hload
  | ok k' =>
    obtain ⟨hserved, -, hclear⟩ := fault_resolved_iff hboot .nil
    obtain ⟨s, S, hs', hS, -, hlt, -⟩ :=
      hf.page (boot_sized hboot) ((boot_inv hboot).atHome_of_atUser hu)
    cases hs.symm.trans hs'
    have hwhole := hclear (fun _ => rfl) (fun _ he => absurd he List.not_mem_nil) 0 S _ hS hlt
    exact ⟨k0, k', hboot, hf, h, (hserved 0 S 0 0 k' hu hf hs hS h).mpr (.inl hwhole.1)⟩

/-- The sample, with every flag of the first space set. -/
def junkSample : Config := { Config.sample 1 with junk := fun _ => true }

/-- The fault on the first instruction is served twice. It is not over either
time, and takes two frames for the page. -/
theorem fault_not_resolved : ∃ k0 k1 k2 : Kernel, boot junkSample = .ok k0 ∧
    k0.atomicStep (.fault 0 0) = .ok k1 ∧ ¬ k1.Resolved 0 ∧
    k1.atomicStep (.fault 0 0) = .ok k2 ∧ ¬ k2.Resolved 0 ∧
    k2.memMap 0 = true ∧ k2.memMap 1 = true := by
  have hdemo : junkSample.boots (fun k0 => continues atomicStep k0 [.fault 0 0, .fault 0 0]
      (fun k => decide (k.Faults 0 ∧ k.memMap 0 = true ∧ k.memMap 1 = true))) = true := by
    decide +kernel
  obtain ⟨k0, hboot, hp⟩ := Config.boots_iff.mp hdemo
  obtain ⟨k2, hrun, hk2⟩ := continues_iff.mp hp
  obtain ⟨hf2, h0, h1⟩ := of_decide_eq_true hk2
  cases hrun with
  | @cons _ _ k1 _ _ hfirst hrest =>
    have hsecond := run_singleton.mp hrest
    obtain ⟨⟨-, hf1⟩, -⟩ := ite_error_eq_ok.mp hsecond
    exact ⟨k0, k1, k2, hboot, hfirst, fun h => resolved_iff.mp h hf1, hsecond,
      fun h => resolved_iff.mp h hf2, h0, h1⟩

end Kernel
end Nachos

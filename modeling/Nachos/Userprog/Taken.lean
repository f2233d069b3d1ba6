import Nachos.Userprog.ReadCall
import Nachos.Userprog.Reload
import Nachos.Userprog.Resolved

/-! What a buffer of `SC_Read` takes, told by the state in which the call is made.
Along a run whose `swapped` flags are clear, the frame of a page fault is known
beforehand, and serving the fault evicts the page in that frame, builds the new page
there from the executable and leaves the rest. So `Takes` comes down to where the
bytes of the buffer are and where the page behind them is built (`Accepts`). -/

namespace Nachos
open Lib

namespace AddrSpace

/-- Building page `v` in frame `f` writes at `x`: in the frame, or behind it where
a segment is copied too far. -/
def Overwrites (S : AddrSpace) (v f x : Nat) : Prop :=
  ∃ j : Nat, x = pageSize * f + j ∧ (j < pageSize ∨ (S.built v (v * pageSize + j)).isSome)

variable {S : AddrSpace} {v f x : Nat} {mem mem' : Nat → UInt8}

theorem buildPage_kept (hf : f < numPhysPages) (h : S.buildPage v f mem = .ok mem')
    (hx : ¬ S.Overwrites v f x) : mem' x = mem x := by
  obtain ⟨-, hlow, hhigh⟩ := buildPage_eq_ok hf h
  by_cases hlt : x < pageSize * f
  · exact hlow x hlt
  · obtain ⟨j, rfl⟩ := Nat.exists_eq_add_of_le (Nat.le_of_not_lt hlt)
    have hj : ¬ j < pageSize := fun hj => hx ⟨j, rfl, .inl hj⟩
    have hnone : S.built v (v * pageSize + j) = none :=
      Option.not_isSome_iff_eq_none.mp fun hs => hx ⟨j, rfl, .inr hs⟩
    rw [hhigh j, hnone, if_neg hj]
    rfl

/-- What is written has nothing to do with what was there. -/
theorem buildPage_written {mem₁ mem₁' : Nat → UInt8} (hf : f < numPhysPages)
    (h : S.buildPage v f mem = .ok mem') (h₁ : S.buildPage v f mem₁ = .ok mem₁')
    (hx : S.Overwrites v f x) : mem' x = mem₁' x := by
  obtain ⟨j, rfl, hj⟩ := hx
  rw [(buildPage_eq_ok hf h).2.2 j, (buildPage_eq_ok hf h₁).2.2 j]
  rcases hj with hj | hj
  · rw [if_pos hj, if_pos hj]
  · obtain ⟨b, hb⟩ := Option.isSome_iff_exists.mp hj
    rw [hb]
    rfl

end AddrSpace

namespace Kernel

/-- The `m` bytes from `addr` on are in memory and may be written. -/
def Present (k : Kernel) (addr : BitVec 32) (m : Nat) : Prop :=
  ∀ i < m, ∃ x, k.Writable (addr + BitVec.ofNat 32 i) x

/-- A page fault gets frame `f`: it is the first free one or, with memory full, the
one to be taken from a page, and no suspended fault has it in hand. With FIFO its
lock has to be free too. -/
def Gets (k : Kernel) (random f : Nat) : Prop :=
  (k.find = some f ∨ k.find = none ∧ k.Chooses random f ∧ ¬ k.InFlight f) ∧
    (k.swapChoice = 1 → (k.pageLock f).value ≠ 0)

/-- A system call is under way in space `s`, which was made like `S`, after a run with
clear flags. -/
structure Calling (k : Kernel) (s : SpacePtr) (S : AddrSpace) : Prop where
  framed : k.Framed
  unswapped : k.frames.Unswapped
  call : k.here = .call
  table : k.pageTable = some s
  space : (k.space s).map AddrSpace.fixed = some S.fixed

variable {k k' k1 k2 : Kernel} {s : SpacePtr} {S : AddrSpace} {v f random x : Nat}
  {addr c : BitVec 32} {b b' : UInt8} {p : Place}

/-! ## The frame of a fault -/

theorem Gets.unique {f' : Nat} (h : k.Gets random f) (h' : k.Gets random f') : f = f' := by
  rcases h.1 with hf | ⟨hn, hf, -⟩ <;> rcases h'.1 with hf' | ⟨hn', hf', -⟩
  · exact Option.some.inj (hf.symm.trans hf')
  · cases hf.symm.trans hn'
  · cases hn.symm.trans hf'
  · exact hf.unique hf'

/-- Accesses to memory do not change the choice. -/
theorem gets_congr (hm : MemoryOnly k k') (hframes : k'.frames = k.frames) :
    k'.Gets random f ↔ k.Gets random f := by
  have hmap : k'.memMap = k.memMap := (congrArg FrameTable.marked hframes :)
  have hlist : k'.pageList = k.pageList := (congrArg FrameTable.pageList hframes :)
  have hchoice : k'.swapChoice = k.swapChoice := (congrArg Kernel.swapChoice hm.rest :)
  have hlock : k'.pageLock = k.pageLock := (congrArg Kernel.pageLock hm.rest :)
  have hfind : k'.find = k.find := by
    unfold find
    rw [hmap]
  unfold Gets Chooses
  rw [hfind, hlist, hchoice, hlock, inFlight_iff, inFlight_iff, hframes]

theorem Framed.raise (hk : k.Framed) (addr : BitVec 32) : (k.raise addr).Framed :=
  ⟨hk.inv.registers _ (by simp), hk.sized, hk.frames⟩

theorem Framed.selects_iff (hk : k.Framed) : (∃ k1, k.selectPage random = .ok (f, k1)) ↔
    k.find = some f ∨ k.find = none ∧ k.Chooses random f ∧ ¬ k.InFlight f := by
  constructor
  · intro ⟨k1, hsel⟩
    rcases selectPage_frames hsel with ⟨hfind, -⟩ | ⟨hfull, s, v, p, hp, hpf, -, -⟩
    · exact .inl hfind
    · refine .inr ⟨hfull, ?_, hk.not_inFlight hp hpf⟩
      rcases selectPage_cases hsel with ⟨hfind, -⟩ | ⟨-, k2, s', hv, -, -⟩
      · cases hfull.symm.trans hfind
      · exact (victim_cases hv).imp (fun h => ⟨h.1, h.2.1⟩) fun h => ⟨h.1, h.2.1⟩
  · rintro (hfind | ⟨hfull, hf, hfree⟩)
    · exact ⟨_, by unfold selectPage; rw [hfind]⟩
    · have hlt : f < numPhysPages := by
        rcases hf with ⟨hfifo, rfl⟩ | ⟨-, rfl⟩
        · exact hk.front_lt hfifo hfull
        · exact Nat.mod_lt _ (by decide)
      obtain ⟨k2, hvictim⟩ : ∃ k2, k.victim random = .ok (f, k2) := by
        unfold victim
        rcases hf with ⟨hfifo, rfl⟩ | ⟨hrandom, rfl⟩
        · exact ⟨_, if_pos hfifo⟩
        · exact ⟨_, (if_neg (by rw [hrandom]; decide)).trans (if_pos hrandom)⟩
      obtain ⟨⟨g, k1⟩, hsel⟩ := selectPage_of_victim hfull hvictim hlt
        (hk.victimFound (marked_of_full hfull hlt) hfree)
      rcases selectPage_cases hsel with ⟨hfind, -⟩ | ⟨-, k3, s', hv, -, -⟩
      · cases hfull.symm.trans hfind
      · cases hvictim.symm.trans hv
        exact ⟨k1, hsel⟩

/-- The page in the frame is evicted, and no other. -/
theorem Framed.selectPage_place (hk : k.Framed) (hsel : k.selectPage random = .ok (f, k1))
    (hp : k.frames.place s v = some p) :
    k1.frames.place s v = some (if p.frame = f then ⟨-1, false, false⟩ else p) := by
  rcases selectPage_frames hsel with ⟨hfind, hk1⟩ | ⟨-, s', v', p', hp', hpf', -, hk1⟩
  · have hne : p.frame ≠ f := by
      intro hpf
      have hmarked := hk.frames.marked_of_holds (h := .page s v) ⟨p, hp, hpf⟩
      cases (find_lt hfind).2.symm.trans hmarked
    rw [hk1, if_neg hne]
    exact hp
  · have hset := (congrFun (congrFun (congrArg FrameTable.place hk1) s) v).trans
      (k.frames.setPlace_place s' s v' v _)
    rw [hset]
    by_cases hpf : p.frame = f
    · rw [if_pos (hk.page_unique hp hpf hp' hpf'), if_pos hpf]
    · have hne : ¬ (s = s' ∧ v = v') := by
        rintro ⟨rfl, rfl⟩
        cases hp.symm.trans hp'
        exact hpf hpf'
      rw [if_neg hne, if_neg hpf, hp]

/-! ## Memory in a call -/

theorem Calling.current (hk : k.Calling s S) : ∃ S', k.space s = some S' ∧ S'.fixed = S.fixed ∧
    k.machineTable = .ok (s, S') ∧ k.pageTableSize = S'.numPages ∧ k.currentSpace = .ok s := by
  obtain ⟨s', S', hs', hpt, hS', hsize⟩ := (hk.framed.inv.atHome_of_atUser (.inr hk.call)).table
  cases hk.table.symm.trans hpt
  have hfixed := hk.space
  rw [hS'] at hfixed
  refine ⟨S', hS', Option.some.inj hfixed, machineTable_eq_ok.mpr ⟨hpt, hS'⟩, hsize, ?_⟩
  unfold currentSpace
  rw [hs']

theorem Calling.faults_iff (hk : k.Calling s S) :
    k.Faults c ↔ ∃ p, k.frames.place s (vpnOf c) = some p ∧ p.valid = false := by
  obtain ⟨S', hS', -, -, hsize, -⟩ := hk.current
  exact faults_iff_place hk.table hS' hsize

theorem Calling.mapped_iff (hk : k.Calling s S) : k.Mapped c x ↔
    ∃ p f, k.frames.place s (vpnOf c) = some p ∧ p.In f ∧
      x = pageSize * f + c.toNat % pageSize := by
  obtain ⟨S', hS', -, htab, hsize, -⟩ := hk.current
  -- the frame of a page is one of the machine's
  have hframe {p : Place} {f : Nat} (hp : k.frames.place s (vpnOf c) = some p) (hin : p.In f) :
      f < numPhysPages :=
    hk.framed.frames.range (hk.framed.frames.marked_of_holds (h := .page s _) ⟨p, hp, hin.1⟩)
  have hunsigned {f : Nat} (hf : f < numPhysPages) : toUnsigned f = f := by
    simp only [numPhysPages] at hf
    exact toUnsigned_of_nonneg (by omega) (by omega)
  rw [Kernel.mapped_iff htab, hsize]
  constructor
  · rintro ⟨hlt, hvalid, -, hx⟩
    have hp := frames_place.mpr ⟨S', hS', AddrSpace.place_eq_some.mpr ⟨hlt, rfl⟩⟩
    rcases hk.framed.frames.places hp with hout | ⟨f, hin⟩
    · cases hvalid.symm.trans hout.2
    · have hphys : (S'.pageTable (vpnOf c)).physicalPage = f := hin.1
      refine ⟨_, f, hp, hin, ?_⟩
      rw [hx, hphys, hunsigned (hframe hp hin), Int.toNat_natCast, Nat.mul_comm]
  · intro ⟨p, f, hp, hin, hx⟩
    have hf := hframe hp hin
    obtain ⟨S'', hS'', hplace⟩ := frames_place.mp hp
    cases hS'.symm.trans hS''
    obtain ⟨hlt, rfl⟩ := AddrSpace.place_eq_some.mp hplace
    have hphys : (S'.pageTable (vpnOf c)).physicalPage = f := hin.1
    rw [hphys, hunsigned hf, Int.toNat_natCast]
    exact ⟨hlt, hin.2, by exact_mod_cast hf, by rw [hx, Nat.mul_comm]⟩

/-- Different bytes are at different places. -/
theorem Calling.mapped_inj (hk : k.Calling s S) (h : k.Mapped addr x) (h' : k.Mapped c x) :
    addr = c := by
  obtain ⟨p, f, hp, hin, hx⟩ := hk.mapped_iff.mp h
  obtain ⟨p', f', hp', hin', hx'⟩ := hk.mapped_iff.mp h'
  have hoff : f = f' ∧ addr.toNat % pageSize = c.toNat % pageSize := by
    simp only [pageSize] at *
    omega
  obtain ⟨rfl, hoff⟩ := hoff
  have hpage : vpnOf addr = vpnOf c := (hk.framed.page_unique hp hin.1 hp' hin'.1).2
  refine BitVec.eq_of_toNat_eq ?_
  rw [← Nat.div_add_mod addr.toNat pageSize, ← Nat.div_add_mod c.toNat pageSize, hoff]
  exact congrArg (pageSize * · + c.toNat % pageSize) hpage

theorem Calling.hasRoom_iff {m : Nat} (hk : k.Calling s S) (hm : m ≤ 4294967296) :
    k.HasRoom addr m ↔ k.Present addr m := by
  constructor
  · rintro ⟨x, hx, -⟩ i hi
    exact ⟨x i, hx i hi⟩
  · intro hw
    choose! x hx using hw
    refine ⟨x, hx, fun i hi j hj heq => ?_⟩
    have hsame := hk.mapped_inj (hx i hi).mapped (heq ▸ (hx j (by omega)).mapped)
    exact absurd (offset_inj (by omega) (by omega) hsame) (Nat.ne_of_gt hj)

/-- The call goes on after a run of the kernel that brings the thread back to it. -/
theorem Calling.run {es : List Event} (hk : k.Calling s S) (hrun : Run step k es k')
    (hes : ∀ e ∈ es, e.Clear) (hcont : k'.cont = k.cont)
    (hcur : k'.currentThread = k.currentThread) (hpt : k'.pageTable = k.pageTable)
    (hspace : (k'.space s).map AddrSpace.fixed = (k.space s).map AddrSpace.fixed) :
    k'.Calling s S := by
  obtain ⟨hframed, hunswapped⟩ := hk.framed.run_unswapped hk.unswapped hes hrun
  exact ⟨hframed, hunswapped, (here_congr hcont hcur).trans hk.call, hpt.trans hk.table,
    hspace.trans hk.space⟩

theorem Calling.stores {num : Nat} {bs : List UInt8} (hk : k.Calling s S)
    (h : storeBytes addr num k bs = .ok k1) :
    k1.Calling s S ∧ k1.frames = k.frames ∧ MemoryOnly k k1 := by
  induction bs generalizing num k with
  | nil =>
    cases h
    exact ⟨hk, rfl, .refl _⟩
  | cons b bs ih =>
    obtain ⟨k2, hstore, h⟩ := bind_eq_ok.mp h
    have hm := access_memoryOnly hstore
    have hk2 : k2.Calling s S := hk.run (run_singleton.mpr (access_step hk.call hstore))
      (by simp [Event.Clear]) (congrArg Kernel.cont hm.rest :)
      (congrArg Kernel.currentThread hm.rest :) (congrArg Kernel.pageTable hm.rest :) (hm.fixed s)
    obtain ⟨hk1, hframes, hm'⟩ := ih hk2 h
    exact ⟨hk1, hframes.trans (access_frames hstore), hm.trans hm'⟩

/-! ## A page fault in a call -/

/-- What serving a page fault does. -/
structure Served (k : Kernel) (s : SpacePtr) (S : AddrSpace) (addr : BitVec 32) (f : Nat)
    (k' : Kernel) : Prop where
  calling : k'.Calling s S
  frame : f < numPhysPages
  built : S.buildPage (vpnOf addr) f k.mainMemory = .ok k'.mainMemory
  loaded : k'.frames.place s (vpnOf addr) = some ⟨f, true, false⟩
  others : ∀ {v p}, v ≠ vpnOf addr → k.frames.place s v = some p →
    k'.frames.place s v = some (if p.frame = f then ⟨-1, false, false⟩ else p)

/-- A page whose flag is clear is built in the frame. -/
theorem fillPage_builds (h : k.fillPage s v f = .ok k') (hS : k.space s = some S)
    (hflag : S.swapped v = false) : S.buildPage v f k.mainMemory = .ok k'.mainMemory ∧
      ∀ v', k'.frames.place s v' =
        if v' = v then some ⟨f, true, false⟩ else k.frames.place s v' := by
  obtain ⟨S', valid, hS', -, hk', hvalid, hbuild⟩ := fillPage_frames h
  cases hS.symm.trans hS'
  rw [Int.toNat_natCast] at hk' hvalid hbuild
  cases hvalid.mpr (.inl fun hsw => absurd (hflag.symm.trans hsw) (by decide))
  refine ⟨hbuild hflag, fun v' => ?_⟩
  have hset := (congrFun (congrFun (congrArg FrameTable.place hk') s) v').trans
    (k.frames.setPlace_place s s v v' _)
  rw [hset, hflag]
  simp only [true_and]

/-- The same with the choice of the frame before it, under either policy. -/
theorem loadPage_builds (h : k.loadPage s addr random = .ok k') (hpage : pageOfAddr addr = v)
    (hS : k.space s = some S) (hv : v < S.numPages)
    (hmap : (S.pageTable v).physicalPage = -1) (hflag : S.swapped v = false) :
    ∃ f k1, k.selectPage random = .ok (f, k1) ∧ (k.swapChoice = 1 → (k.pageLock f).value ≠ 0) ∧
      S.buildPage v f k.mainMemory = .ok k'.mainMemory ∧
      ∀ v', k'.frames.place s v' =
        if v' = v then some ⟨f, true, false⟩ else k1.frames.place s v' := by
  obtain ⟨f, k1, hsel, hbranch⟩ := loadPage_cases h
  have hlock : k1.pageLock = k.pageLock :=
    (congrArg Kernel.pageLock (selectPage_memoryOnly hsel).1.rest :)
  obtain ⟨S1, hS1, hfixed, hflag1⟩ := selectPage_unmapped hsel hS hv hmap
  have hclear : S1.swapped v = false := hflag1.trans hflag
  rw [hpage] at hbranch
  refine ⟨f, k1, hsel, fun hfifo => ?_, ?_⟩
  · rcases hbranch with ⟨-, hfree, -⟩ | ⟨hother, -⟩
    · exact hlock ▸ hfree
    · exact absurd hfifo hother
  · rw [← selectPage_mainMemory hsel, ← AddrSpace.buildPage_congr hfixed]
    rcases hbranch with ⟨-, -, k2, hfill, rfl⟩ | ⟨-, hfill⟩
    · obtain ⟨st, r, l, hV⟩ := k2.lockV_eq f
      have hbuilt := fillPage_builds (k := (k1.appendPage f).lockTake f) hfill hS1 hclear
      rw [hV]
      exact hbuilt
    · exact fillPage_builds hfill hS1 hclear

/-- The page of a fault has no frame, and is to be built. -/
theorem Calling.missing (hk : k.Calling s S) (hflt : k.Faults addr) : ∃ S', k.space s = some S' ∧
    S'.fixed = S.fixed ∧ k.currentSpace = .ok s ∧ pageOfAddr addr = vpnOf addr ∧
    vpnOf addr < S'.numPages ∧ (S'.pageTable (vpnOf addr)).physicalPage = -1 ∧
    S'.swapped (vpnOf addr) = false := by
  obtain ⟨S', hS', hfixed, -, -, hs⟩ := hk.current
  obtain ⟨s₁, S₁, hs₁, hS₁, hpage, hlt, hinvalid⟩ :=
    hflt.page hk.framed.sized (hk.framed.inv.atHome_of_atUser (.inr hk.call))
  cases (currentSpace_eq_ok hs).symm.trans hs₁
  cases hS'.symm.trans hS₁
  have hp := frames_place.mpr ⟨S', hS', AddrSpace.place_eq_some.mpr ⟨hlt, rfl⟩⟩
  refine ⟨S', hS', hfixed, hs, hpage, hlt, ?_, hk.unswapped hp⟩
  rcases hk.framed.frames.places hp with hout | ⟨f, hin⟩
  · exact hout.1
  · cases hinvalid.symm.trans hin.2

theorem Calling.bringIn_served (hk : k.Calling s S) (hflt : k.Faults addr)
    (h : k.bringIn addr random = .ok k') : ∃ f, k.Gets random f ∧ k.Served s S addr f k' := by
  obtain ⟨S', hS', hfixed, hs, hpage, hlt, hmap, hflag⟩ := hk.missing hflt
  unfold bringIn at h
  rw [if_pos hflt] at h
  obtain ⟨s', hs', hload⟩ := bind_eq_ok.mp h
  cases hs.symm.trans hs'
  obtain ⟨es, hrun, hclear⟩ := loadPage_run (.inr hk.call) hflt hs hload
  obtain ⟨st, r, l, hrest⟩ := loadPage_unpaged hload
  have hcalling : k'.Calling s S := hk.run hrun hclear (congrArg Kernel.cont hrest :)
    (congrArg Kernel.currentThread hrest :) (congrArg Kernel.pageTable hrest :)
    (loadPage_fixed hload s)
  obtain ⟨f, k1, hsel, hlock, hbuild, hplace⟩ := loadPage_builds hload hpage hS' hlt hmap hflag
  have hframed := hk.framed.raise addr
  refine ⟨f, ⟨hframed.selects_iff.mp ⟨k1, hsel⟩, hlock⟩, hcalling, (selectPage_memoryOnly hsel).2,
    ?_, ?_, fun hne hp => ?_⟩
  · rw [← AddrSpace.buildPage_congr hfixed]
    exact hbuild
  · rw [hplace, if_pos rfl]
  · rw [hplace, if_neg hne]
    exact hframed.selectPage_place hsel hp

theorem Calling.bringIn_ok (hk : k.Calling s S) (hflt : k.Faults addr) (hf : k.Gets random f)
    (hb : S.Buildable (vpnOf addr)) : ∃ k', k.bringIn addr random = .ok k' := by
  obtain ⟨S', hS', hfixed, hs, hpage, hlt, hmap, hflag⟩ := hk.missing hflt
  obtain ⟨k1, hsel⟩ := (hk.framed.raise addr).selects_iff.mpr hf.1
  obtain ⟨S1, hS1, hfixed1, hflag1⟩ := selectPage_unmapped hsel hS' hlt hmap
  have hpages : S1.numPages = S'.numPages := (congrArg AddrSpace.numPages hfixed1 :)
  obtain ⟨mem, hmem⟩ :=
    AddrSpace.buildPage_ok (selectPage_memoryOnly hsel).2 hb k.mainMemory
  have hfill : S1.fillMemory (k1.hostData S1.swapFile) (vpnOf addr) f k.mainMemory = .ok mem := by
    unfold AddrSpace.fillMemory
    rw [hflag1, hflag, AddrSpace.buildPage_congr (hfixed1.trans hfixed)]
    exact hmem
  obtain ⟨k', hload, -⟩ := (exists_loadPage_iff (P := fun _ => True) hsel hf.2 hS1 hpage
    (hpages ▸ hlt)).mpr ⟨mem, hfill, trivial⟩
  exact ⟨k', (if_pos hflt).trans (bind_eq_ok.mpr ⟨s, hs, hload⟩)⟩

/-! ## Bytes next to a page fault -/

theorem Calling.other_page (hk : k.Calling s S) (hp : k.frames.place s v = some p)
    (hvalid : p.valid = true) (hflt : k.Faults addr) : v ≠ vpnOf addr := by
  rintro rfl
  obtain ⟨q, hq, hinvalid⟩ := hk.faults_iff.mp hflt
  cases hp.symm.trans hq
  cases hvalid.symm.trans hinvalid

/-- A byte that is not written stays where it is. -/
theorem Served.kept (h : k.Served s S addr f k') (hk : k.Calling s S) (hflt : k.Faults addr)
    (hx : k.Mapped c x) (hover : ¬ S.Overwrites (vpnOf addr) f x) :
    k'.Mapped c x ∧ k'.mainMemory x = k.mainMemory x := by
  obtain ⟨p, g, hp, hin, hplace⟩ := hk.mapped_iff.mp hx
  have hne := hk.other_page hp hin.2 hflt
  have hframe : p.frame ≠ f := by
    intro hpf
    have hgf : (g : Int) = f := hin.1.symm.trans hpf
    cases Int.ofNat.inj hgf
    exact hover ⟨_, hplace, .inl (Nat.mod_lt _ (by decide))⟩
  refine ⟨h.calling.mapped_iff.mpr ⟨p, g, ?_, hin, hplace⟩,
    AddrSpace.buildPage_kept h.frame h.built hover⟩
  rw [h.others hne hp, if_neg hframe]

/-- The page of a byte in the frame is out of memory. -/
theorem Served.evicted (h : k.Served s S addr f k') (hk : k.Calling s S) (hflt : k.Faults addr)
    (hp : k.frames.place s (vpnOf c) = some p) (hin : p.In f) : k'.Faults c := by
  refine h.calling.faults_iff.mpr ⟨⟨-1, false, false⟩, ?_, rfl⟩
  rw [h.others (hk.other_page hp hin.2 hflt) hp, if_pos hin.1]

/-- What the user has in a page that is not in memory is what the executable has. -/
theorem Calling.userByte_of_faults (hk : k.Calling s S) (hflt : k.Faults c)
    (hb : k.UserByte c b) :
    b = S.executableByte ((vpnOf c : Nat) * pageSize + (c.toNat % pageSize : Nat)) := by
  obtain ⟨⟨random, k1, hin⟩, hpeek⟩ := hb
  obtain ⟨f, -, hserved⟩ := hk.bringIn_served hflt hin
  have hx : k1.Mapped c (pageSize * f + c.toNat % pageSize) :=
    hserved.calling.mapped_iff.mpr ⟨_, f, hserved.loaded, ⟨rfl, rfl⟩, rfl⟩
  have hbyte := hpeek random k1 hin
  rw [hx.peek_eq] at hbyte
  rw [← Option.some.inj hbyte]
  exact AddrSpace.buildPage_byte hserved.frame hserved.built (Nat.mod_lt _ (by decide))

/-- A byte that is written, or whose page is evicted, does not depend on what it
was before the fault. -/
theorem Served.overwritten {k₁ k₁' : Kernel} (h : k.Served s S addr f k')
    (h₁ : k₁.Served s S addr f k₁') (hk : k.Calling s S) (hk₁ : k₁.Calling s S)
    (hframes : k₁.frames = k.frames) (hflt : k.Faults addr) (hx : k.Mapped c x)
    (hover : S.Overwrites (vpnOf addr) f x) (hb : k'.UserByte c b) (hb' : k₁'.UserByte c b') :
    b = b' := by
  obtain ⟨p, g, hp, hin, hplace⟩ := hk.mapped_iff.mp hx
  have hflt₁ : k₁.Faults addr := by
    rw [hk₁.faults_iff, hframes]
    exact hk.faults_iff.mp hflt
  have hp₁ : k₁.frames.place s (vpnOf c) = some p := by
    rw [hframes]
    exact hp
  by_cases hgf : g = f
  · subst hgf
    rw [h.calling.userByte_of_faults (h.evicted hk hflt hp hin) hb,
      h₁.calling.userByte_of_faults (h₁.evicted hk₁ hflt₁ hp₁ hin) hb']
  · -- the page stays, and the byte is behind the frame
    have hframe : p.frame ≠ f := by
      rw [hin.1]
      exact_mod_cast hgf
    have hne := hk.other_page hp hin.2 hflt
    have hx' : k'.Mapped c x := h.calling.mapped_iff.mpr
      ⟨p, g, by rw [h.others hne hp, if_neg hframe], hin, hplace⟩
    have hx₁' : k₁'.Mapped c x := h₁.calling.mapped_iff.mpr
      ⟨p, g, by rw [h₁.others hne hp₁, if_neg hframe], hin, hplace⟩
    rw [← hx'.userByte_iff.mp hb, ← hx₁'.userByte_iff.mp hb']
    exact AddrSpace.buildPage_written h.frame h.built h₁.built hover

/-! ## When the bytes arrive -/

/-- The page of `c` can be built, and is built over none of the `m` bytes from `addr`
on, in the frame that a fault gets. -/
def Avoids (k : Kernel) (S : AddrSpace) (random : Nat) (c addr : BitVec 32) (m : Nat) : Prop :=
  S.Buildable (vpnOf c) ∧ ∃ f, k.Gets random f ∧
    ∀ i < m, ∀ x, k.Mapped (addr + BitVec.ofNat 32 i) x → ¬ S.Overwrites (vpnOf c) f x

/-- A buffer of `size` bytes takes `m` bytes and a NUL: they are in memory; or the `m`
bytes are, the NUL is not, and the page fault for it leaves them. -/
def Accepts (k : Kernel) (S : AddrSpace) (random : Nat) (addr : BitVec 32) (size : Int) (m : Nat) :
    Prop :=
  m < size ∧ k.Present addr (m + 1) ∨
    m ≤ size ∧ k.Present addr m ∧ k.Faults (addr + BitVec.ofNat 32 m) ∧
      k.Avoids S random (addr + BitVec.ofNat 32 m) addr m

/-- A fault after bytes have been stored gets the frame that it would get before. -/
theorem Calling.served_after {bs : List UInt8} (hk : k.Calling s S) (hflt : k.Faults c)
    (hbytes : storeBytes addr 0 k bs = .ok k1) (hin : k1.bringIn c random = .ok k2) :
    k1.Calling s S ∧ k1.frames = k.frames ∧ k1.Faults c ∧
      ∃ f, k.Gets random f ∧ k1.Served s S c f k2 := by
  obtain ⟨hk1, hframes, honly⟩ := hk.stores hbytes
  have hflt1 : k1.Faults c := (storeBytes_sameMap hbytes).faults hflt
  obtain ⟨f, hf, hserved⟩ := hk1.bringIn_served hflt1 hin
  exact ⟨hk1, hframes, hflt1, f, (gets_congr honly hframes).mp hf, hserved⟩

/-- A page that is built over none of the bytes leaves them as they were stored. -/
theorem Avoids.leaves {bs : List UInt8} (h : k.Avoids S random c addr bs.length)
    (hk : k.Calling s S) (hroom : k.HasRoom addr bs.length) (hflt : k.Faults c)
    (hbytes : storeBytes addr 0 k bs = .ok k1) :
    ∃ k2, k1.bringIn c random = .ok k2 ∧ k2.UserBytes addr bs := by
  obtain ⟨hb, f, hf, hover⟩ := h
  obtain ⟨x, hx, hinj⟩ := hroom
  obtain ⟨hk1, hframes, honly⟩ := hk.stores hbytes
  have hmap := storeBytes_sameMap hbytes
  obtain ⟨k2, hin⟩ := hk1.bringIn_ok (hmap.faults hflt) ((gets_congr honly hframes).mpr hf) hb
  obtain ⟨-, -, hflt1, f', hf', hserved⟩ := hk.served_after hflt hbytes hin
  cases hf.unique hf'
  refine ⟨k2, hin, fun i b hi => ?_⟩
  have hlt := (List.getElem?_eq_some_iff.mp hi).1
  obtain ⟨hx2, hmem⟩ := hserved.kept hk1 hflt1 ((hmap.mapped _ _).mpr (hx i hlt).mapped)
    (hover i hlt _ (hx i hlt).mapped)
  have hstored := storeBytes_memory (x := x) hbytes
    (fun i hi => by rw [Nat.zero_add]; exact hx i hi)
    (fun i hi j hj => by rw [Nat.zero_add, Nat.zero_add]; exact hinj i hi j hj) i b hi
  rw [Nat.zero_add] at hstored
  exact hx2.userByte_iff.mpr (hmem.trans hstored)

section
variable {ok : UInt8 → Prop} (h97 : ok 97) (h98 : ok 98) {m : Nat}
include h97 h98

/-- If serving the fault leaves the bytes, whatever they are, it avoids them. -/
theorem Calling.avoids (hk : k.Calling s S) (hw : k.Present addr m) (hflt : k.Faults c)
    (hkeep : ∀ p : List UInt8, p.length = m → (∀ b ∈ p, ok b) →
      ∀ k1, storeBytes addr 0 k p = .ok k1 →
        ∃ k2, k1.bringIn c random = .ok k2 ∧ k2.UserBytes addr p) :
    k.Avoids S random c addr m := by
  -- the bytes are the same letter `m` times, once `a` and once `b`
  have hletters {b : UInt8} (hb : ok b) : ∃ k1 k2 : Kernel,
      storeBytes addr 0 k (List.replicate m b) = .ok k1 ∧ k1.bringIn c random = .ok k2 ∧
        ∀ i < m, k2.UserByte (addr + BitVec.ofNat 32 i) b := by
    obtain ⟨k1, hbytes⟩ : ∃ k1, storeBytes addr 0 k (List.replicate m b) = .ok k1 :=
      storeBytes_ok_iff.mpr fun i hi => by
        rw [List.length_replicate] at hi
        rw [Nat.zero_add]
        exact hw i hi
    obtain ⟨k2, hin, huser⟩ := hkeep _ List.length_replicate
      (fun b' hb' => List.eq_of_mem_replicate hb' ▸ hb) k1 hbytes
    exact ⟨k1, k2, hbytes, hin, fun i hi => huser i b (by simp [hi])⟩
  obtain ⟨k1, k2, hbytes, hin, huser⟩ := hletters h97
  obtain ⟨k1', k2', hbytes', hin', huser'⟩ := hletters h98
  obtain ⟨hk1, hframes, hflt1, f, hf, hserved⟩ := hk.served_after hflt hbytes hin
  obtain ⟨hk1', hframes', -, f', hf', hserved'⟩ := hk.served_after hflt hbytes' hin'
  cases hf.unique hf'
  refine ⟨(AddrSpace.buildPage_eq_ok hserved.frame hserved.built).1, f, hf,
    fun i hi x hx hover => ?_⟩
  have hx1 := ((storeBytes_sameMap hbytes).mapped _ _).mpr hx
  have hsame : (97 : UInt8) = 98 := hserved.overwritten hserved' hk1 hk1'
    (hframes'.trans hframes.symm) hflt1 hx1 hover (huser i hi) (huser' i hi)
  exact absurd hsame (by decide)

theorem Calling.takes_iff {size : Int} {random : Nat → Nat} (hk : k.Calling s S)
    (hsize : size < 4294967296) :
    k.Takes ok random addr size m ↔ k.Accepts S (random m) addr size m := by
  refine or_congr (and_congr_right fun hm => hk.hasRoom_iff (by omega)) (and_congr_right fun hm =>
    and_congr_right fun hw => and_congr_right fun hflt => ⟨hk.avoids h97 h98 hw hflt, ?_⟩)
  rintro h p rfl - k1 hbytes
  exact h.leaves hk ((hk.hasRoom_iff (by omega)).mpr hw) hflt hbytes

end

theorem run_calling {c : Config} {k0 : Kernel} {es : List Event} (hboot : boot c = .ok k0)
    (hj : ∀ v, c.junk v = false) (hes : ∀ e ∈ es, e.Clear) (hrun : Run step k0 es k)
    (hc : k.here = .call) (htab : k.machineTable = .ok (s, S)) : k.Calling s S := by
  obtain ⟨hk, hu⟩ := run_unswapped hboot hj hes hrun
  obtain ⟨hpt, hS⟩ := machineTable_eq_ok.mp htab
  exact ⟨hk, hu, hc, hpt, by rw [hS]; rfl⟩

/-- In a call after a run with clear flags, `SRead` keeps its promise for every input of
the given length, with the first NUL in the given place, exactly if its own buffer will
do and the pages of the user's buffer are where they have to be. -/
theorem read_delivers_clear_iff {c : Config} {k0 : Kernel} {es : List Event} {size id : Int}
    {random : Nat → Nat} {merged : Bool} {left : Nat → UInt8} (hboot : boot c = .ok k0)
    (hj : ∀ v, c.junk v = false) (hes : ∀ e ∈ es, e.Clear) (hrun : Run step k0 es k)
    (hc : k.here = .call) (htab : k.machineTable = .ok (s, S)) (hpos : 0 < size) :
    (id = 0 → ∀ len m : Nat, 0 < len → m ≤ len → ∀ file,
      ((∀ word : Word, word.bytes.length = len → strlen word.bytes = m →
          Delivered addr size word.bytes
            (k.sRead random merged addr size id (some word) left file)) ↔
        IsInt (size + 10) ∧ len < size + 10 ∧ k.Accepts S (random m) addr size m)) ∧
    (id = 0 → ∀ file,
      (Delivered addr size [] (k.sRead random merged addr size id none left file) ↔
        IsInt (size + 10) ∧ left 0 = 0 ∧ k.Accepts S (random 0) addr size 0)) ∧
    (id ≠ 0 → ∀ len m : Nat, m ≤ len → ∀ word,
      ((∀ file : List UInt8, file.length = len → strlen file = m →
          Delivered addr size file (k.sRead random merged addr size id word left file)) ↔
        IsInt (size + 10) ∧ (size ≤ m ∧ k.Present addr size.toNat ∨
          m < size ∧ m < len ∧ k.Accepts S (random m) addr size m))) := by
  have hk := run_calling hboot hj hes hrun hc htab
  have hsize (hint : IsInt (size + 10)) : size < 4294967296 := by
    have := hint.2
    omega
  have htyped (m : Nat) (hint : IsInt (size + 10)) :
      k.Takes Typed random addr size m ↔ k.Accepts S (random m) addr size m :=
    hk.takes_iff typed_letter.1 typed_letter.2 (hsize hint)
  refine ⟨fun hid len m hlen hm file => ?_, fun hid file => ?_, fun hid len m hm word => ?_⟩
  · simp only [sRead, if_pos hid]
    rw [keyboard_delivers_iff hpos hm hlen]
    exact and_congr_right fun hint => and_congr_right fun _ => htyped m hint
  · simp only [sRead, if_pos hid]
    rw [end_of_input_delivers_iff hpos]
    exact and_congr_right fun hint => and_congr_right fun _ => htyped 0 hint
  · simp only [sRead, if_neg hid]
    rw [file_delivers_iff hpos hm]
    refine and_congr_right fun hint => or_congr (and_congr_right fun _ => ?_)
      (and_congr_right fun _ => and_congr_right fun _ => ?_)
    · have := hsize hint
      exact hk.hasRoom_iff (by omega)
    · exact hk.takes_iff (by decide) (by decide) (hsize hint)

end Kernel
end Nachos

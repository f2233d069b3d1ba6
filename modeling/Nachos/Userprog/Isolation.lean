import Nachos.Machine.VirtualMemory
import Nachos.Userprog.Preemption
import Nachos.Userprog.Reload

/-! Memory protection. While a process does not run, nothing the others do, in their
programs, in system calls or in page faults that evict and load pages, changes a byte
of its pages in memory. The frames are exclusive, so it remains to see that every
store goes to a frame of its own process; the one exception are program files whose
segments make `loadPage` write behind the frame it fills. -/

namespace Nachos
open Lib

/-- No page is built with bytes behind its end. -/
def AddrSpace.Tame (S : AddrSpace) : Prop :=
  ∀ v, ¬ S.noffH.code.Spills S.file v ∧ ¬ S.noffH.initData.Spills S.file v

def NoffFile.Tame (x : NoffFile) : Prop :=
  ∀ v, ¬ (NoffHeader.decode x.bytes).code.Spills x.bytes v ∧
    ¬ (NoffHeader.decode x.bytes).initData.Spills x.bytes v

theorem AddrSpace.Tame.congr {S S' : AddrSpace} (h : S.Tame) (hf : S'.fixed = S.fixed) :
    S'.Tame := by
  have hfile : S'.file = S.file := (congrArg AddrSpace.file hf :)
  have hnoff : S'.noffH = S.noffH := (congrArg AddrSpace.noffH hf :)
  intro v
  rw [hfile, hnoff]
  exact h v

theorem frameBytes_congr {mem mem' : Nat → UInt8} {f : Nat}
    (h : ∀ j < pageSize, mem' (pageSize * f + j) = mem (pageSize * f + j)) :
    frameBytes mem' f = frameBytes mem f :=
  List.map_congr_left fun j hj => h j (List.mem_range.mp hj)

/-- A change inside one frame is none in another. -/
theorem frameBytes_of_outside {mem mem' : Nat → UInt8} {f g : Nat} (hne : f ≠ g)
    (h : ∀ i, i < pageSize * g ∨ pageSize * g + pageSize ≤ i → mem' i = mem i) :
    frameBytes mem' f = frameBytes mem f := by
  refine frameBytes_congr fun j hj => h _ ?_
  unfold pageSize at *
  omega

namespace Kernel

variable {k k' k1 : Kernel} {n : Next} {e : Event} {s s' : SpacePtr} {v f g : Nat} {p : Place}

/-! ## Stores -/

theorem translate_spec {table : Nat → TranslationEntry} {size physAddr : Nat}
    {addr : BitVec 32} {width : Width} {writing : Bool} {entry : TranslationEntry}
    (h : Nachos.translate table size addr width writing = .mapped physAddr entry) :
    addr.toNat % width.size = 0 ∧ vpnOf addr < size ∧ (table (vpnOf addr)).valid = true ∧
      physAddr = (toUnsigned (table (vpnOf addr)).physicalPage).toNat * pageSize +
        addr.toNat % pageSize := by
  unfold Nachos.translate TranslationEntry.access at h
  repeat' split at h
  all_goals cases h
  rename_i halign hsize hvalid _ _
  exact ⟨not_not.mp halign, Nat.lt_of_not_le hsize, by simpa using hvalid, rfl⟩

/-- A store goes to the frame of a valid page of the machine's table, and stays in it. -/
theorem write_frame {addr : BitVec 32} {width : Width} {value : BitVec 32} {S' : AddrSpace}
    (hf : k.frames.Inv) (htable : k.machineTable = .ok (s', S'))
    (hsize : k.pageTableSize = S'.numPages) (h : k.access (.write addr width value) = .ok k') :
    ∃ g, k.frames.Holds g (.page s' (vpnOf addr)) ∧
      ∀ i, i < pageSize * g ∨ pageSize * g + pageSize ≤ i → k'.mainMemory i = k.mainMemory i := by
  simp only [access] at h
  split at h
  · rename_i physAddr entry htr
    cases h
    rw [translate, htable] at htr
    obtain ⟨halign, hlt, hvalid, hphys⟩ := translate_spec (Except.ok.inj htr)
    have hp := frames_place.mpr ⟨S', (machineTable_eq_ok.mp htable).2,
      AddrSpace.place_eq_some.mpr ⟨hsize ▸ hlt, rfl⟩⟩
    rcases hf.places hp with ho | ⟨g, hg⟩
    · exact absurd (hvalid.symm.trans ho.2) (by simp)
    have hheld : k.frames.Holds g (.page s' (vpnOf addr)) := ⟨_, hp, hg.1⟩
    have hrange : g < numPhysPages := hf.range ((hf.own.marked_iff g).mpr ⟨_, hheld⟩)
    have hframe : (S'.pageTable (vpnOf addr)).physicalPage = (g : Int) := hg.1
    have hoffset := offset_add_size_le halign
    have hbase : physAddr = pageSize * g + addr.toNat % pageSize := by
      rw [hphys, hframe, toUnsigned_of_nonneg (by omega) (by unfold numPhysPages at hrange; omega),
        Int.toNat_natCast, Nat.mul_comm]
    refine ⟨g, hheld, fun i hi => ?_⟩
    rcases hi with hi | hi
    · exact overlay_of_lt (by omega)
    · refine overlay_of_le ?_
      rw [List.length_map, List.length_range]
      omega
  · cases h
  · cases h

/-- An access of the running process changes no page of another. -/
theorem access_outside {a : Access} (hf : k.frames.Inv) (ha : k.AtHome)
    (hs : k.spaceOf k.currentThread ≠ some s) (hp : k.frames.place s v = some p) (hin : p.In f)
    (h : k.access a = .ok k') : frameBytes k'.mainMemory f = frameBytes k.mainMemory f := by
  obtain ⟨s', S', hsp, hpt, hS', hsize⟩ := ha.table
  have htable : k.machineTable = .ok (s', S') := machineTable_eq_ok.mpr ⟨hpt, hS'⟩
  cases a with
  | read addr width =>
    simp only [access] at h
    split at h
    · cases h
      rw [show (k.setEntry addr _).mainMemory = k.mainMemory by rw [setEntry, htable]; rfl]
    · cases h
    · cases h
  | write addr width value =>
    obtain ⟨g, hg, hout⟩ := write_frame hf htable hsize h
    have hheld : k.frames.Holds f (.page s v) := ⟨p, hp, hin.1⟩
    refine frameBytes_of_outside ?_ hout
    rintro rfl
    cases hf.own.unique hg hheld
    exact hs hsp

theorem accesses_outside {as : List Access} (hf : k.frames.Inv) (ha : k.AtHome)
    (hs : k.spaceOf k.currentThread ≠ some s) (hp : k.frames.place s v = some p) (hin : p.In f)
    (h : as.foldlM access k = .ok k') :
    frameBytes k'.mainMemory f = frameBytes k.mainMemory f := by
  induction as generalizing k with
  | nil =>
    cases h
    rfl
  | cons a as ih =>
    obtain ⟨k1, h1, h⟩ := bind_eq_ok.mp h
    have hm := access_memoryOnly h1
    have hsp : k1.spaceOf k1.currentThread = k.spaceOf k.currentThread := by
      rw [spaceOf, spaceOf, show k1.thread = k.thread from (congrArg Kernel.thread hm.rest :),
        show k1.currentThread = k.currentThread from (congrArg Kernel.currentThread hm.rest :)]
    have hframes := access_frames h1
    refine (ih (hframes ▸ hf) (hm.atHome ha) (hsp ▸ hs) (hframes ▸ hp) h).trans ?_
    exact access_outside hf ha hs hp hin h1

/-! ## Page faults -/

/-- Filling a frame with a page of a tame program changes no other frame. -/
theorem fillPage_outside {w : Int} (hu : k.frames.Unswapped)
    (ht : ∀ S, k.space s' = some S → S.Tame) (hg : g < numPhysPages)
    (h : k.fillPage s' w g = .ok k') (hne : f ≠ g) :
    frameBytes k'.mainMemory f = frameBytes k.mainMemory f := by
  obtain ⟨S, valid, hS, hlt, -, -, hbuild⟩ := fillPage_frames h
  have hflag : S.swapped w.toNat = false :=
    hu (frames_place.mpr ⟨S, hS, AddrSpace.place_eq_some.mpr ⟨hlt, rfl⟩⟩)
  have hb := (AddrSpace.buildPage_eq_ok hg (hbuild hflag)).1
  exact frameBytes_of_outside hne
    ((AddrSpace.buildPage_outside_iff hg hb).mpr (ht S hS _) _ _ (hbuild hflag))

theorem fillPage_place {w : Int} (h : k.fillPage s' w g = .ok k') (hne : s ≠ s') (v : Nat) :
    k'.frames.place s v = k.frames.place s v := by
  obtain ⟨S, valid, -, -, hk', -⟩ := fillPage_frames h
  have hset := (congrFun (congrFun (congrArg FrameTable.place hk') s) v).trans
    (k.frames.setPlace_place s' s w.toNat v _)
  rw [hset, if_neg fun h => hne h.1]

/-! ## A page of a process that does not run -/

/-- The page `v` of `s` is out of memory, or in the frame `f` with the bytes `B`. -/
def Guards (k : Kernel) (s : SpacePtr) (v f : Nat) (B : List UInt8) : Prop :=
  ∃ p, k.frames.place s v = some p ∧ (p.Out ∨ p.In f ∧ frameBytes k.mainMemory f = B)

variable {B : List UInt8}

theorem Guards.of_eq (h : k.Guards s v f B) (hp : k'.frames.place s v = k.frames.place s v)
    (hm : ∀ p, k.frames.place s v = some p → p.In f →
      frameBytes k'.mainMemory f = frameBytes k.mainMemory f) : k'.Guards s v f B := by
  obtain ⟨p, hplace, hcase⟩ := h
  refine ⟨p, hp.trans hplace, hcase.imp id fun ⟨hin, hB⟩ => ⟨hin, ?_⟩⟩
  rw [hm p hplace hin, hB]

/-- Choosing a frame may evict the page; if not, it is another frame. -/
theorem Guards.selectPage {random : Nat} (h : k.Guards s v f B) (hf : k.frames.Inv)
    (hsel : k.selectPage random = .ok (g, k1)) :
    k1.Guards s v f B ∧ ∀ p, k1.frames.place s v = some p → p.In f → f ≠ g := by
  have hmem := selectPage_mainMemory hsel
  obtain ⟨p, hplace, hcase⟩ := h
  rcases selectPage_frames hsel with ⟨hfind, hk1⟩ | ⟨-, s', v', q, hq, hqg, -, hk1⟩
  · have hplace' : k1.frames.place s v = some p := by
      rw [hk1]
      exact hplace
    refine ⟨⟨p, hplace', by rw [hmem]; exact hcase⟩, fun p' hp' hin hfg => ?_⟩
    -- the frame that was found is not in use
    have hfree : k.memMap g = false := by
      simpa using List.find?_some hfind
    cases hplace'.symm.trans hp'
    have hheld : k.frames.Holds f (.page s v) := ⟨p, hplace, hin.1⟩
    have hmarked : k.memMap f = true := (hf.own.marked_iff f).mpr ⟨_, hheld⟩
    rw [hfg, hfree] at hmarked
    cases hmarked
  · have hset := (congrFun (congrFun (congrArg FrameTable.place hk1) s) v).trans
      (k.frames.setPlace_place s' s v' v _)
    by_cases hsv : s = s' ∧ v = v'
    · rw [if_pos hsv] at hset
      refine ⟨⟨_, hset, .inl ⟨rfl, rfl⟩⟩, fun p' hp' hin => ?_⟩
      cases hset.symm.trans hp'
      cases hin.2
    · rw [if_neg hsv] at hset
      have hplace' := hset.trans hplace
      refine ⟨⟨p, hplace', by rw [hmem]; exact hcase⟩, fun p' hp' hin hfg => hsv ?_⟩
      cases hplace'.symm.trans hp'
      have hheld : k.frames.Holds f (.page s v) := ⟨p, hplace, hin.1⟩
      have hvictim : k.frames.Holds f (.page s' v') := ⟨q, hq, hfg ▸ hqg⟩
      cases hf.own.unique hheld hvictim
      exact ⟨rfl, rfl⟩

theorem Guards.fillPage {w : Int} (h : k.Guards s v f B) (hu : k.frames.Unswapped)
    (ht : ∀ S, k.space s' = some S → S.Tame) (hg : g < numPhysPages) (hne : s ≠ s')
    (hother : ∀ p, k.frames.place s v = some p → p.In f → f ≠ g)
    (hfill : k.fillPage s' w g = .ok k') : k'.Guards s v f B :=
  h.of_eq (fillPage_place hfill hne v) fun p hp hin =>
    fillPage_outside hu ht hg hfill (hother p hp hin)

/-- Every program and every address space is tame. -/
structure Tame (k : Kernel) : Prop where
  exe : ∀ name x, k.exe name = some x → x.Tame
  space : ∀ {s S}, k.space s = some S → S.Tame

theorem Tame.memoryOnly (ht : k.Tame) (hm : MemoryOnly k k') : k'.Tame := by
  refine ⟨fun name x hx => ht.exe name x ?_, fun {s S} hS => ?_⟩
  · rw [← show k'.exe = k.exe from (congrArg Kernel.exe hm.rest :)]
    exact hx
  · have hfixed := hm.fixed s
    rw [hS] at hfixed
    obtain ⟨S0, hS0, he⟩ := Option.map_eq_some_iff.mp hfixed.symm
    exact (ht.space hS0).congr he.symm

theorem act_guards (hk : k.Framed) (hu : k.frames.Unswapped) (ht : k.Tame)
    (hs : k.spaceOf k.currentThread ≠ some s) (h : k.act e = .ok (k', n))
    (hG : k.Guards s v f B) : k'.Guards s v f B := by
  have hi := hk.inv
  have hf := hk.frames
  have hsame {k' : Kernel} (hp : k'.frames.place s v = k.frames.place s v)
      (hm : k'.mainMemory = k.mainMemory) : k'.Guards s v f B :=
    hG.of_eq hp fun _ _ _ => by rw [hm]
  -- the space that goes is that of the running process
  have hended {r : Registers} {k' : Kernel} (h : { k with registers := r }.terminate = .ok k') :
      k'.Guards s v f B := by
    obtain ⟨T, hT, -⟩ := hi.running
    obtain ⟨s', hs', -⟩ := hi.procs.space hT
    obtain ⟨_, m, st, -, -, hk'⟩ :=
      terminate_eq_ok (k := { k with registers := r }) (live_eq_some hT).2 hs' h
    have hspace : k'.space = Function.update k.space s' none := (congrArg Kernel.space hk' :)
    have hne : s ≠ s' := fun he => hs (he ▸ (spaceOf_of_live hT).trans hs')
    refine hsame ?_ (congrArg Kernel.mainMemory hk' :)
    change (k'.space s).bind _ = (k.space s).bind _
    rw [hspace, Function.update_of_ne hne]
  cases acts_of_act h with
  | @instr accesses registers k1 huser h1 =>
    have hG1 : k1.Guards s v f B := hG.of_eq (by rw [accesses_frames h1]) fun p hp hin =>
      accesses_outside hf (hi.atHome_of_atUser (.inl huser)) hs hp hin h1
    exact hG1
  | tick _ => exact hG
  | @fault addr random k1 _ _ h1 =>
    obtain ⟨s', g, k2, hsp, hsel, hbranch⟩ := pageFault_cases h1
    have hraise : (k.raise addr).Guards s v f B := hG
    obtain ⟨hG2, hother⟩ := hraise.selectPage (k := k.raise addr) hf hsel
    obtain ⟨hm, hg⟩ := selectPage_memoryOnly hsel
    rcases hbranch with ⟨-, rfl⟩ | ⟨-, hfill⟩
    · exact hG2
    · have hu2 : k2.frames.Unswapped := fun {s v p} hp => by
        rcases selectPage_place hsel s v with hsame | hout
        · exact hu (hsame ▸ hp)
        · cases hout.symm.trans hp
          rfl
      have ht2 : k2.Tame := Tame.memoryOnly (k := k.raise addr) ⟨ht.exe, ht.space⟩ hm
      exact hG2.fillPage hu2 (fun S hS => ht2.space hS) hg (fun he => hs (he ▸ hsp)) hother hfill
  | lock h =>
    refine hsame (by rw [lock_frames hi h]) ?_
    obtain ⟨_, _, _, -, ⟨rfl, -⟩ | ⟨rfl, -⟩⟩ := lock_cases h <;> rfl
  | load h =>
    obtain ⟨w, g, c, s', k1, hhere, hsp, hfill, rfl, -⟩ := load_cases h
    have hg : g < numPhysPages := hi.framed_here hhere
    obtain ⟨T, hT, -⟩ := hi.running
    have hhand : k.frames.Holds g (.fault k.currentThread) :=
      ⟨w, frames_hand.mpr ⟨⟨T, hT⟩, by rw [show k.cont k.currentThread = _ from hhere]; rfl⟩⟩
    obtain ⟨st, r, l, hV⟩ := k1.lockV_eq g
    have hG1 : k1.Guards s v f B := by
      refine hG.fillPage hu (fun S hS => ht.space hS) hg (fun he => hs (he ▸ hsp)) ?_ hfill
      rintro p hp hin rfl
      have hheld : k.frames.Holds f (.page s v) := ⟨p, hp, hin.1⟩
      cases hf.own.unique hheld hhand
    rw [hV]
    exact hG1
  | trap _ => exact hsame rfl rfl
  | @copy a _ hcall h1 =>
    refine hG.of_eq (by rw [access_frames h1]) fun p hp hin => ?_
    exact access_outside hf (hi.atHome_of_atUser (.inr hcall)) hs hp hin h1
  | @ret result _ => cases result <;> exact hsame rfl rfl
  | exec hc h =>
    obtain ⟨hi', ha'⟩ := hi.back hc
    rcases exec_cases hi' ha' h with ⟨-, rfl, -⟩ | ⟨x, k1, -, hnew, -, rfl⟩
    · exact hsame rfl rfl
    · obtain ⟨_, _, _, -, -, -, -, hk1⟩ := newAddrSpace_eq_ok hnew
      have hne : s ≠ k.nextSpace := by
        rintro rfl
        obtain ⟨p, hp, -⟩ := hG
        obtain ⟨S, hS, -⟩ := frames_place.mp hp
        rw [hi.procs.freshSpace _ (Nat.le_refl _)] at hS
        cases hS
      refine hsame ?_ (congrArg Kernel.mainMemory hk1 :)
      change (k1.space s).bind _ = (k.space s).bind _
      have hspace : k1.space = Function.update k.space k.nextSpace _ :=
        (congrArg Kernel.space hk1 :)
      rw [hspace, Function.update_of_ne hne]
  | join hc h =>
    obtain ⟨hi', ha'⟩ := hi.back hc
    rcases join_target hi' ha' h with ⟨-, rfl, -⟩ | ⟨c, -, -, rfl⟩
    · exact hsame rfl rfl
    · exact hsame rfl rfl
  | yield _ => exact hsame rfl rfl
  | exit _ h1 => exact hended (r := k.registers) h1
  | fatal _ h1 => exact hended h1
  | enable _ => exact hsame rfl rfl
  | create hc h1 =>
    obtain ⟨_, _, -, -, hk1, -⟩ := create_eq_ok h1
    exact hsame (by rw [create_frames hi (by rw [hc]; rfl) h1])
      (congrArg Kernel.mainMemory hk1 :)

theorem step_guards (hk : k.Framed) (hu : k.frames.Unswapped) (ht : k.Tame)
    (hs : k.spaceOf k.currentThread ≠ some s) (h : k.step e = .ok k')
    (hG : k.Guards s v f B) : k'.Guards s v f B := by
  obtain ⟨⟨k1, n⟩, hact, h⟩ := bind_eq_ok.mp h
  have hmem : k'.mainMemory = k1.mainMemory := (congrArg Kernel.mainMemory (dispatch_frame h).1 :)
  exact (act_guards hk hu ht hs hact hG).of_eq (by rw [dispatch_frames h]) fun _ _ _ => by rw [hmem]

/-! ## Runs -/

/-- The files of the host are only read. -/
theorem step_exe (hi : k.Inv) (h : k.step e = .ok k') : k'.exe = k.exe := by
  obtain ⟨⟨k1, n⟩, hact, h⟩ := bind_eq_ok.mp h
  refine (congrArg Kernel.exe (dispatch_frame h).1 :).trans ?_
  obtain ⟨T, hT, -⟩ := hi.running
  cases act_acted hi hact with
  | moved hl => exact (congrArg Kernel.exe hl.rest :)
  | built _ hnew =>
    obtain ⟨_, _, _, -, -, -, -, hk⟩ := newAddrSpace_eq_ok hnew
    exact (congrArg Kernel.exe hk :)
  | joined => rfl
  | @ended _ r _ _ _ ht =>
    obtain ⟨s, hs, -⟩ := hi.procs.space hT
    obtain ⟨_, _, _, -, -, hk⟩ :=
      terminate_eq_ok (k := { k with registers := r }) (live_eq_some hT).2 hs ht
    exact (congrArg Kernel.exe hk :)
  | created hc =>
    obtain ⟨_, _, -, -, hk, -⟩ := create_eq_ok hc
    exact (congrArg Kernel.exe hk :)

theorem Tame.step (ht : k.Tame) (hi : k.Inv) (h : k.step e = .ok k') : k'.Tame := by
  refine ⟨fun name x hx => ht.exe name x (step_exe hi h ▸ hx), fun {s S} hS => ?_⟩
  cases step_spaceStep hi h with
  | paged _ fixed =>
    have hf := fixed s
    rw [hS] at hf
    obtain ⟨S0, hS0, he⟩ := Option.map_eq_some_iff.mp hf.symm
    exact (ht.space hS0).congr he.symm
  | built opens _ _ space =>
    rw [space, Function.update_apply] at hS
    split at hS
    · cases hS
      exact ht.exe _ _ opens
    · exact ht.space hS
  | deleted _ _ _ space =>
    rw [space, Function.update_apply] at hS
    split at hS
    · cases hS
    · exact ht.space hS

theorem boot_tame {c : Config} (hexe : ∀ name x, c.exe name = some x → x.Tame)
    (h : boot c = .ok k) : k.Tame := by
  obtain ⟨x, numPages, hx, -, rfl⟩ := boot_eq_ok h
  refine ⟨hexe, fun {s S} hS => ?_⟩
  change Function.update (fun _ => none) 0 _ s = some S at hS
  rw [Function.update_apply] at hS
  split at hS
  · cases hS
    exact hexe _ x hx
  · cases hS

/-- Whatever processes and page faults are interleaved with, as long as the process with
the space `s` does not run, a page of it that is in memory is not changed; if it is in
memory in the end, it is still in the same frame with the same bytes. -/
theorem memory_isolated {c : Config} {k0 : Kernel} {es es' : List Event} {f' : Nat}
    (hboot : boot c = .ok k0) (hj : ∀ v, c.junk v = false)
    (hexe : ∀ name x, c.exe name = some x → x.Tame) (hes : ∀ e ∈ es ++ es', e.Clear)
    (hrun : Run step k0 es k) (hrun' : Run step k es' k')
    (haway : Guarded step (fun m _ => m.spaceOf m.currentThread ≠ some s) k es')
    (hres : k.Resident s v f) (hres' : k'.Resident s v f') :
    f' = f ∧ frameBytes k'.mainMemory f = frameBytes k.mainMemory f := by
  have hclear : Guarded step (fun _ e => e.Clear) k0 es :=
    .of_events fun e he _ => hes e (List.mem_append_left _ he)
  have hclear' : Guarded step (fun _ e => e.Clear) k es' :=
    .of_events fun e he _ => hes e (List.mem_append_right _ he)
  have h0 : k0.frames.Unswapped := boot_unswapped hboot hj
  obtain ⟨⟨hk, hu⟩, ht⟩ : (k.Framed ∧ k.frames.Unswapped) ∧ k.Tame :=
    hrun.guarded_inv (I := fun k => (k.Framed ∧ k.frames.Unswapped) ∧ k.Tame)
      (fun _ _ _ hm he hs => ⟨hm.1.1.step_unswapped hm.1.2 he hs, hm.2.step hm.1.1.inv hs⟩)
      hclear ⟨⟨boot_framed hboot, @h0⟩, boot_tame hexe hboot⟩
  obtain ⟨p, hp, hvalid, hframe⟩ := hres.place
  have hG : k.Guards s v f (frameBytes k.mainMemory f) := ⟨p, hp, .inr ⟨⟨hframe, hvalid⟩, rfl⟩⟩
  obtain ⟨-, -, hG'⟩ := hrun'.guarded_inv
    (I := fun m => (m.Framed ∧ m.frames.Unswapped) ∧ m.Tame ∧
      m.Guards s v f (frameBytes k.mainMemory f))
    (fun _ _ _ hm hG hs => by
      obtain ⟨⟨hk, hu⟩, ht, hguards⟩ := hm
      exact ⟨hk.step_unswapped @hu hG.1 hs, ht.step hk.inv hs,
        step_guards hk @hu ht hG.2 hs hguards⟩)
    (hclear'.and haway) ⟨⟨hk, @hu⟩, ht, hG⟩
  obtain ⟨q, hq, hqvalid, hqframe⟩ := hres'.place
  obtain ⟨p', hp', hout | ⟨hin, hB⟩⟩ := hG'
  · cases hq.symm.trans hp'
    exact absurd (hqvalid.symm.trans hout.2) (by simp)
  · cases hq.symm.trans hp'
    exact ⟨Int.ofNat.inj (hqframe.symm.trans hin.1), hB⟩

/-- A program of one whole page. -/
def pageFile : NoffFile where
  bytes := [0xbadfad, 0, 40, 256, 0, 0, 0, 256, 0, 1024].flatMap encodeWord ++
    List.replicate 256 7
  whole := by decide +kernel
  magic := by decide +kernel
  code_size := by decide +kernel
  initData_size := by decide +kernel
  uninitData_size := by decide +kernel

theorem pageFile_tame : pageFile.Tame := by
  have hstop : (NoffHeader.decode pageFile.bytes).code.stop = 256 := by decide +kernel
  have hempty : (NoffHeader.decode pageFile.bytes).initData.size.toInt = 0 := by decide +kernel
  refine fun v => ⟨?_, ?_⟩
  · rintro ⟨-, hlow, hhigh, -⟩
    rw [hstop] at hlow hhigh
    simp only [pageSize] at hlow hhigh
    omega
  · rintro ⟨hpos, -⟩
    rw [hempty] at hpos
    cases hpos

/-- The machine started on that program, under FIFO. -/
def pageConfig : Config where
  swapChoice := 1
  exe := fun name => if name = [97] then some pageFile else none
  program := [97]
  junk := fun _ => false

/-- Two processes of one program store different bytes at address 100. -/
theorem memory_isolated_sample : ∃ (k0 k k' : Kernel) (es es' : List Event),
    boot pageConfig = .ok k0 ∧ Run step k0 es k ∧ Run step k es' k' ∧ k.mainMemory 100 = 55 ∧
    .instr [.write 100 .byte 66] (fun _ => 0) ∈ es' ∧
    frameBytes k'.mainMemory 0 = frameBytes k.mainMemory 0 := by
  have hdemo : pageConfig.reaches (faultSample 0 ++ [.instr [.write 100 .byte 55] fun _ => 0] ++
      execSample ++ [.trap, .yield]) (fun k =>
      decide (k.Resident 0 0 0) && decide (k.mainMemory 100 = 55) &&
      guards step (fun m _ => decide (m.spaceOf m.currentThread ≠ some 0)) k
        ([.enable false, .create] ++ faultSample 0 ++
          [.instr [.write 100 .byte 66] fun _ => 0]) &&
      continues step k ([.enable false, .create] ++ faultSample 0 ++
          [.instr [.write 100 .byte 66] fun _ => 0]) fun k' => decide (k'.Resident 0 0 0)) =
      true := by
    decide +kernel
  obtain ⟨k0, k, hboot, hrun, hp⟩ := Config.reaches_iff.mp hdemo
  simp only [Bool.and_eq_true, decide_eq_true_eq] at hp
  obtain ⟨⟨⟨hres, hbyte⟩, haway⟩, hcont⟩ := hp
  obtain ⟨k', hrun', hres'⟩ := continues_iff.mp hcont
  refine ⟨k0, k, k', _, _, hboot, hrun, hrun', hbyte, by simp, ?_⟩
  refine (memory_isolated hboot (fun _ => rfl) (fun name x hx => ?_) (fun e he => ?_) hrun hrun'
    ?_ hres (of_decide_eq_true hres')).2
  · have hx' : (if name = [97] then some pageFile else none) = some x := hx
    split at hx'
    · cases hx'
      exact pageFile_tame
    · cases hx'
  · simp only [faultSample, execSample, List.cons_append, List.nil_append, List.mem_cons,
      List.not_mem_nil, or_false] at he
    rcases he with rfl | rfl | rfl | rfl | rfl | rfl | rfl | rfl | rfl | rfl | rfl | rfl | rfl | rfl
    all_goals first
      | trivial
      | exact fun _ => rfl
  · simpa using guarded_of_guards haway

end Kernel
end Nachos

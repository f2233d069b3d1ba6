import Nachos.Userprog.Frames

/-! The kernel's frame tables are the abstract ones: `Kernel.frames` reads them
off the state, and every step of the kernel is a sequence of abstract steps
(`step_frames`), provided that a page which is read back from swap is found
there whole. -/

namespace Nachos
open Lib

/-- The page and the frame of a suspended fault. -/
def Cont.flight : Cont → Option (Int × Nat)
  | .locking v f _ => some (v, f)
  | .locked v f _ => some (v, f)
  | _ => none

/-- An event that leaves the `swapped` flags of a new space clear. -/
def Event.Clear : Event → Prop
  | .exec _ junk _ => ∀ v, junk v = false
  | _ => True

namespace AddrSpace

def place (S : AddrSpace) (v : Nat) : Option Place :=
  if v < S.numPages then
    some ⟨(S.pageTable v).physicalPage, (S.pageTable v).valid, S.swapped v⟩
  else none

theorem place_eq_some {S : AddrSpace} {v : Nat} {p : Place} : S.place v = some p ↔
    v < S.numPages ∧ p = ⟨(S.pageTable v).physicalPage, (S.pageTable v).valid, S.swapped v⟩ := by
  unfold place
  split
  · simp [*, eq_comm]
  · simp [*]

/-- What the search loop of `Swapout` finds is mapped to the frame. -/
theorem pageOf_eq_some {S : AddrSpace} {f v : Nat} (h : S.pageOf f = some v) :
    v < S.numPages ∧ (S.pageTable v).physicalPage = f := by
  have hmem := List.mem_of_find?_eq_some h
  have hp := List.find?_some h
  exact ⟨List.mem_range.mp hmem, of_decide_eq_true hp⟩

theorem pageOf_isSome {S : AddrSpace} {f v : Nat} (hv : v < S.numPages)
    (h : (S.pageTable v).physicalPage = f) : ∃ v', S.pageOf f = some v' := by
  refine Option.isSome_iff_exists.mp (List.find?_isSome.mpr ⟨v, List.mem_range.mpr hv, ?_⟩)
  exact decide_eq_true h

theorem clearFrame_eq_ok {m m' : Nat → Bool} {frame : Int} (h : clearFrame m frame = .ok m')
    (f : Nat) : m' f = true ↔ m f = true ∧ frame ≠ f := by
  unfold clearFrame at h
  split at h
  · rename_i hframe
    cases h
    rw [hframe]
    exact ⟨fun h => ⟨h, by omega⟩, And.left⟩
  · split at h
    · cases h
      rw [Function.update_apply]
      by_cases hf : f = frame.toNat
      · have : frame = f := by omega
        rw [if_pos hf]
        simp [this]
      · have : frame ≠ f := by omega
        rw [if_neg hf]
        simp [this]
    · cases h

/-- The destructor clears exactly the frames of the space's pages. -/
theorem clearFrames_eq_ok {S : AddrSpace} {m m' : Nat → Bool} (hS : S.space = true)
    (h : S.clearFrames m = .ok m') (f : Nat) : m' f = true ↔ m f = true ∧
      ∀ v < S.numPages, (S.pageTable v).physicalPage ≠ f := by
  unfold clearFrames at h
  rw [if_pos hS] at h
  have hloop (l : List Nat) (m : Nat → Bool)
      (h : l.foldlM (fun m i => clearFrame m (S.pageTable i).physicalPage) m = .ok m') :
      m' f = true ↔ m f = true ∧ ∀ v ∈ l, (S.pageTable v).physicalPage ≠ f := by
    induction l generalizing m with
    | nil =>
      cases h
      simp
    | cons i l ih =>
      obtain ⟨m1, h1, h⟩ := bind_eq_ok.mp h
      rw [ih m1 h, List.forall_mem_cons, ← and_assoc, clearFrame_eq_ok h1]
  simpa using hloop _ _ h

end AddrSpace

namespace Kernel

def frames (k : Kernel) : FrameTable where
  home t := (k.live t).bind Thread.space
  place s v := (k.space s).bind fun S => S.place v
  hand t := (k.live t).bind fun _ => (k.cont t).flight
  marked := k.memMap
  ipt := k.ipt
  fifo := k.swapChoice = 1
  pageList := k.pageList

variable {k k' : Kernel} {n : Next} {e : Event} {s : SpacePtr} {S S' : AddrSpace} {t : ThreadPtr}
  {v f : Nat} {p : Place}

theorem frames_place : k.frames.place s v = some p ↔ ∃ S, k.space s = some S ∧ S.place v = some p :=
  Option.bind_eq_some_iff

theorem frames_home : k.frames.home t = some s ↔ ∃ T, k.live t = some T ∧ T.space = some s :=
  Option.bind_eq_some_iff

theorem frames_hand {w : Int} : k.frames.hand t = some (w, f) ↔
    (∃ T, k.live t = some T) ∧ (k.cont t).flight = some (w, f) := by
  simp only [frames, Option.bind_eq_some_iff]
  exact ⟨fun ⟨T, hT, h⟩ => ⟨⟨T, hT⟩, h⟩, fun ⟨⟨T, hT⟩, h⟩ => ⟨T, hT, h⟩⟩

/-! ## Frame lemmas -/

theorem frames_eq (hl : k'.live = k.live) (hc : k'.cont = k.cont) (hs : k'.space = k.space)
    (hm : k'.memMap = k.memMap) (hi : k'.ipt = k.ipt) (hw : k'.swapChoice = k.swapChoice)
    (hp : k'.pageList = k.pageList) : k'.frames = k.frames := by
  unfold frames
  rw [hl, hc, hs, hm, hi, hw, hp]

theorem dispatch_frames (h : k.dispatch n = .ok k') : k'.frames = k.frames := by
  obtain ⟨hr, hl, -⟩ := dispatch_frame h
  exact frames_eq hl (congrArg Kernel.cont hr :) (congrArg Kernel.space hr :)
    (congrArg Kernel.memMap hr :) (congrArg Kernel.ipt hr :) (congrArg Kernel.swapChoice hr :)
    (congrArg Kernel.pageList hr :)

theorem frames_goTo (hl : (k.live k.currentThread).isSome) (c : Cont) :
    (k.goTo c).frames = { k.frames with
      hand := Function.update k.frames.hand k.currentThread c.flight } := by
  refine FrameTable.ext rfl rfl (funext fun t => ?_) rfl rfl rfl rfl
  change (k.live t).bind (fun _ => (Function.update k.cont k.currentThread c t).flight) =
    Function.update k.frames.hand k.currentThread c.flight t
  simp only [Function.update_apply]
  split
  · rename_i ht
    obtain ⟨T, hT⟩ := Option.isSome_iff_exists.mp hl
    rw [ht, hT]
    rfl
  · rfl

theorem frames_hand_current (hl : (k.live k.currentThread).isSome) :
    k.frames.hand k.currentThread = k.here.flight := by
  obtain ⟨T, hT⟩ := Option.isSome_iff_exists.mp hl
  change (k.live k.currentThread).bind _ = _
  rw [hT]
  rfl

/-- Moving along in the code, with nothing in hand before and after. -/
theorem frames_goTo_same (hl : (k.live k.currentThread).isSome) {c : Cont}
    (hc : c.flight = k.here.flight) : (k.goTo c).frames = k.frames := by
  rw [frames_goTo hl, hc, ← frames_hand_current hl, Function.update_eq_self]

theorem frames_setSpace (hS : k.space s = some S) (hv : S'.place v = some p)
    (hother : ∀ v', v' ≠ v → S'.place v' = S.place v') :
    (k.setSpace s S').frames = k.frames.setPlace s v p := by
  refine FrameTable.ext rfl (funext fun s' => funext fun v' => ?_) rfl rfl rfl rfl rfl
  rw [FrameTable.setPlace_place]
  change (Function.update k.space s (some S') s').bind _ = if _ then _ else (k.space s').bind _
  by_cases hs : s' = s
  · subst hs
    rw [Function.update_self, hS]
    by_cases hv' : v' = v
    · subst hv'
      simpa using hv
    · simpa [hv'] using hother v' hv'
  · rw [Function.update_of_ne hs]
    simp [hs]

/-- So does a space where the entry of one page has another frame and valid bit. -/
theorem frames_setEntry {valid : Bool} (hS : k.space s = some S) (hlt : v < S.numPages)
    (hn : S'.numPages = S.numPages) (hsw : S'.swapped = S.swapped)
    (hphys : (S'.pageTable v).physicalPage = f) (hvalid : (S'.pageTable v).valid = valid)
    (hother : ∀ v', v' ≠ v → S'.pageTable v' = S.pageTable v') :
    (k.setSpace s S').frames = k.frames.setPlace s v ⟨f, valid, S.swapped v⟩ := by
  refine frames_setSpace hS (AddrSpace.place_eq_some.mpr ⟨hn ▸ hlt, ?_⟩) fun v' hv' => ?_
  · rw [hphys, hvalid, hsw]
  · unfold AddrSpace.place
    rw [hother v' hv', hsw, hn]

/-! ## The paging operations -/

theorem setEntry_frames {addr : BitVec 32} {width : Width} {writing : Bool} {x : Nat}
    {e : TranslationEntry} (h : k.translate addr width writing = .ok (.mapped x e)) :
    (k.setEntry addr e).frames = k.frames := by
  unfold translate at h
  split at h
  · cases h
  · rename_i s S htab
    unfold setEntry
    rw [htab]
    obtain ⟨hphys, hvalid, -⟩ := translate_mapped (Except.ok.inj h)
    refine FrameTable.ext rfl (funext fun s' => funext fun v' => ?_) rfl rfl rfl rfl rfl
    change (Function.update k.space s _ s').bind _ = (k.space s').bind _
    rw [Function.update_apply]
    split
    · rename_i hs
      rw [hs, (machineTable_eq_ok.mp htab).2]
      change AddrSpace.place _ v' = S.place v'
      unfold AddrSpace.place
      dsimp only
      rw [Function.update_apply]
      by_cases hv : v' = vpnOf addr
      · simp [hv, hphys, hvalid]
      · simp [hv]
    · rfl

theorem access_frames {a : Access} (h : k.access a = .ok k') : k'.frames = k.frames := by
  obtain ⟨addr, width, writing, x, e, mem, htr, rfl⟩ := access_eq_ok h
  exact setEntry_frames htr

theorem accesses_frames {as : List Access} (h : as.foldlM access k = .ok k') :
    k'.frames = k.frames := by
  induction as generalizing k with
  | nil => cases h; rfl
  | cons a as ih =>
    obtain ⟨k1, h1, h⟩ := bind_eq_ok.mp h
    exact (ih h).trans (access_frames h1)

/-- `Swapout` finds a page that is mapped to the frame, and puts it out. -/
theorem swapout_frames (h : k.swapout s f = .ok k') : ∃ v p, k.frames.place s v = some p ∧
    p.frame = f ∧ k'.frames = k.frames.setPlace s v ⟨-1, false, false⟩ := by
  obtain ⟨S, page, hS, hpage, rfl⟩ := swapout_cases h
  obtain ⟨hlt, hphys⟩ := AddrSpace.pageOf_eq_some hpage
  refine ⟨page, _, frames_place.mpr ⟨S, hS, AddrSpace.place_eq_some.mpr ⟨hlt, rfl⟩⟩, hphys, ?_⟩
  have hset (k1 : Kernel) (hS1 : k1.space s = some S) :
      (k1.setSpace s (S.setEvicted page)).frames =
        k1.frames.setPlace s page ⟨-1, false, false⟩ := by
    refine frames_setSpace hS1 (AddrSpace.place_eq_some.mpr ⟨hlt, ?_⟩) fun v' hv' => ?_
    · simp [AddrSpace.setEvicted, AddrSpace.setEntry, AddrSpace.setSwapped]
    · simp [AddrSpace.place, AddrSpace.setEvicted, AddrSpace.setEntry, AddrSpace.setSwapped, hv']
  split
  · exact hset (k.writeSwap S page f) hS
  · exact hset k hS

/-- What the choice of a frame does to the frame tables, apart from what the
fault then has in hand and the end of the FIFO list. -/
theorem selectPage_frames {random : Nat} (h : k.selectPage random = .ok (f, k')) :
    (k.find = some f ∧ k'.frames = { k.frames with marked := Function.update k.memMap f true }) ∨
    (k.find = none ∧ ∃ s v p, k.frames.place s v = some p ∧ p.frame = f ∧
      (k.swapChoice = 1 → f = k.pageList.headD 0) ∧
      k'.frames = { k.frames.setPlace s v ⟨-1, false, false⟩ with
        pageList := if k.swapChoice = 1 then k.pageList.tail else k.pageList }) := by
  rcases selectPage_cases h with ⟨hf, rfl⟩ | ⟨hn, k1, s, hv, -, hs⟩
  · exact .inl ⟨hf, rfl⟩
  · obtain ⟨v, p, hp, hpf, hk⟩ := swapout_frames hs
    refine .inr ⟨hn, s, v, p, ?_⟩
    rcases victim_cases hv with ⟨hfifo, hf, rfl⟩ | ⟨hrandom, -, rfl⟩
    · exact ⟨hp, hpf, fun _ => hf, by rw [hk, if_pos hfifo]; rfl⟩
    · have hfifo : k1.swapChoice ≠ 1 := by rw [hrandom]; decide
      exact ⟨hp, hpf, fun h => absurd h hfifo, by rw [hk, if_neg hfifo]; rfl⟩

theorem selectPage_hand {random : Nat} (h : k.selectPage random = .ok (f, k')) :
    k'.frames.hand = k.frames.hand := by
  rcases selectPage_frames h with ⟨-, hk'⟩ | ⟨-, s, v, p, -, -, -, hk'⟩
  · rw [hk']
  · rw [hk']
    rfl

/-- An eviction sets no `swapped` flag. -/
theorem selectPage_swapped {random : Nat} {p' : Place} (h : k.selectPage random = .ok (f, k'))
    (hp : k.frames.place s v = some p) (hsw : p.swapped = false)
    (hp' : k'.frames.place s v = some p') : p'.swapped = false := by
  have hsame (hpp : k.frames.place s v = some p') : p'.swapped = false := by
    rw [hp] at hpp
    cases hpp
    exact hsw
  rcases selectPage_frames h with ⟨-, hk'⟩ | ⟨-, s', v', -, -, -, -, hk'⟩
  · rw [hk'] at hp'
    exact hsame hp'
  · rw [hk'] at hp'
    have hset := (k.frames.setPlace_place s' s v' v ⟨-1, false, false⟩).symm.trans hp'
    split at hset
    · cases hset
      rfl
    · exact hsame hset

/-- A page that is to be read from swap is there whole. -/
def Whole (k : Kernel) (S : AddrSpace) (v : Nat) : Prop :=
  S.swapped v = true →
    (readBytes (k.hostData S.swapFile) (v * pageSize) pageSize).length = pageSize

/-- The page gets the frame. It is valid afterwards if it was before, or if all
of it was found, and only then; a page that is not on swap is built in the frame. -/
theorem fillPage_frames {w : Int} (h : k.fillPage s w f = .ok k') :
    ∃ S valid, k.space s = some S ∧ w.toNat < S.numPages ∧
      k'.frames = { k.frames.setPlace s w.toNat ⟨f, valid, S.swapped w.toNat⟩ with
        ipt := Function.update k.ipt f (some k.currentThread) } ∧
      (valid = true ↔ k.Whole S w.toNat ∨ (S.pageTable w.toNat).valid = true) ∧
      (S.swapped w.toNat = false → S.buildPage w.toNat f k.mainMemory = .ok k'.mainMemory) := by
  obtain ⟨S, S1, k1, hS, h0, hlt, rfl, hk1, hbranch⟩ := fillPage_cases h
  have hlt : w.toNat < S.numPages := by omega
  have hS' : k1.space s = some S := by rw [hk1]; exact hS
  have hk (valid : Bool) : k1.frames.setPlace s w.toNat ⟨f, valid, S.swapped w.toNat⟩ =
      { k.frames.setPlace s w.toNat ⟨f, valid, S.swapped w.toNat⟩ with
        ipt := Function.update k.ipt f (some k.currentThread) } := by
    rw [hk1]; rfl
  rcases hbranch with ⟨hsw, rfl⟩ | ⟨hsw, h⟩
  · have hflag : Function.update S.swapped w.toNat true = S.swapped :=
      hsw ▸ Function.update_eq_self _ _
    by_cases hwhole : (readBytes (k1.hostData S.swapFile) (w.toNat * pageSize) pageSize).length =
        pageSize
    · have hread : k.Whole S w.toNat := by
        rw [hk1] at hwhole
        exact fun _ => hwhole
      refine ⟨S, true, hS, hlt, ?_, iff_of_true rfl (.inl hread),
        fun h => absurd h (by simp [hsw])⟩
      unfold swapin
      dsimp only
      rw [if_pos (by exact hwhole)]
      refine Eq.trans ?_ (hk true)
      refine frames_setEntry hS' hlt rfl hflag ?_ ?_ ?_
      · simp [AddrSpace.setLoaded, AddrSpace.setEntry, AddrSpace.setSwapped]
      · simp [AddrSpace.setLoaded, AddrSpace.setEntry, AddrSpace.setSwapped]
      · intro v' hv'
        simp [AddrSpace.setLoaded, AddrSpace.setEntry, AddrSpace.setSwapped, hv']
    · have hread : ¬ k.Whole S w.toNat := by
        intro h
        rw [hk1] at hwhole
        exact hwhole (h hsw)
      refine ⟨S, (S.pageTable w.toNat).valid, hS, hlt, ?_,
        ⟨.inr, fun h => h.resolve_left hread⟩, fun h => absurd h (by simp [hsw])⟩
      unfold swapin
      dsimp only
      rw [if_neg (by exact hwhole)]
      refine Eq.trans ?_ (hk _)
      refine frames_setEntry hS' hlt rfl hflag ?_ ?_ ?_
      · simp [AddrSpace.setEntry, AddrSpace.setSwapped]
      · simp [AddrSpace.setEntry, AddrSpace.setSwapped]
      · intro v' hv'
        simp [AddrSpace.setEntry, AddrSpace.setSwapped, hv']
  · unfold loadImage at h
    obtain ⟨mem, hbuild, h⟩ := bind_eq_ok.mp h
    cases h
    have hread : k.Whole S w.toNat := fun h => absurd h (by simp [hsw])
    refine ⟨S, true, hS, hlt, ?_, iff_of_true rfl (.inl hread), fun _ => ?_⟩
    · refine Eq.trans ?_ (hk true)
      refine frames_setEntry hS' hlt rfl rfl ?_ ?_ ?_
      · simp [AddrSpace.setLoaded, AddrSpace.setEntry]
      · simp [AddrSpace.setLoaded, AddrSpace.setEntry]
      · intro v' hv'
        simp [AddrSpace.setLoaded, AddrSpace.setEntry, hv']
    · rw [hk1] at hbuild
      exact hbuild

theorem fillPage_frames_whole {w : Int} (h : k.fillPage s w f = .ok k')
    (hw : ∀ S, k.space s = some S → w.toNat < S.numPages → k.Whole S w.toNat) :
    ∃ p, k.frames.place s w.toNat = some p ∧
      k'.frames = { k.frames.setPlace s w.toNat ⟨f, true, p.swapped⟩ with
        ipt := Function.update k.ipt f (some k.currentThread) } := by
  obtain ⟨S, valid, hS, hlt, hk', hvalid, -⟩ := fillPage_frames h
  refine ⟨_, frames_place.mpr ⟨S, hS, AddrSpace.place_eq_some.mpr ⟨hlt, rfl⟩⟩, ?_⟩
  rw [hk', hvalid.mpr (.inl (hw S hS hlt))]

/-! ## Sizes of spaces -/

/-- Every space is complete, and so small that its addresses are `int`s. -/
def Sized (k : Kernel) : Prop := ∀ s S, k.space s = some S → S.space = true ∧ S.numPages ≤ 8388608

theorem pagesNeeded_le {x : NoffFile} {numPages : Nat}
    (h : pagesNeeded (NoffHeader.decode x.bytes) = .ok numPages) : numPages ≤ 8388608 := by
  unfold pagesNeeded at h
  obtain ⟨a, ha, h⟩ := bind_eq_ok.mp h
  obtain ⟨b, hb, h⟩ := bind_eq_ok.mp h
  obtain ⟨c, hc, h⟩ := bind_eq_ok.mp h
  obtain ⟨-, rfl⟩ := cInt_eq_ok.mp ha
  obtain ⟨-, rfl⟩ := cInt_eq_ok.mp hb
  obtain ⟨⟨-, hlt⟩, rfl⟩ := cInt_eq_ok.mp hc
  have hcode := x.code_size
  have hinit := x.initData_size
  have huninit := x.uninitData_size
  cases h
  rw [toUnsigned_of_nonneg (by omega) (by omega)]
  simp only [pageSize]
  omega

theorem Sized.step (hz : k.Sized) (hi : k.Inv) (h : k.step e = .ok k') : k'.Sized := by
  intro s S hS
  cases step_spaceStep hi h with
  | paged _ fixed =>
    have hf := fixed s
    rw [hS] at hf
    obtain ⟨S0, hS0, he⟩ := Option.map_eq_some_iff.mp hf.symm
    have hspace : S0.space = S.space := (congrArg AddrSpace.space he :)
    have hnum : S0.numPages = S.numPages := (congrArg AddrSpace.numPages he :)
    rw [← hspace, ← hnum]
    exact hz _ _ hS0
  | built _ _ size space =>
    rw [space, Function.update_apply] at hS
    split at hS
    · cases hS
      exact ⟨rfl, pagesNeeded_le size⟩
    · exact hz _ _ hS
  | deleted _ _ _ space =>
    rw [space, Function.update_apply] at hS
    split at hS
    · cases hS
    · exact hz _ _ hS

theorem boot_sized {c : Config} (h : boot c = .ok k) : k.Sized := by
  obtain ⟨x, numPages, -, hn, hk⟩ := boot_eq_ok h
  intro s S hS
  rw [hk] at hS
  simp only [Function.update_apply] at hS
  split at hS
  · cases hS
    exact ⟨rfl, pagesNeeded_le hn⟩
  · cases hS

/-- A faulting address is in a page of the running thread's space, and the
page number that `loadPage` computes with `int`s is the machine's. -/
theorem Faults.page (hz : k.Sized) (ha : k.AtHome) {addr : BitVec 32} (h : k.Faults addr) :
    ∃ s S, k.spaceOf k.currentThread = some s ∧ k.space s = some S ∧
      pageOfAddr addr = vpnOf addr ∧ vpnOf addr < S.numPages ∧
      (S.pageTable (vpnOf addr)).valid = false := by
  obtain ⟨s, S, hsp, hpt, hS, hsize⟩ := ha.table
  obtain ⟨s', S', htab, hlt, hinv⟩ := h
  obtain ⟨hpt', hS'⟩ := machineTable_eq_ok.mp htab
  cases hpt.symm.trans hpt'
  cases hS.symm.trans hS'
  rw [hsize] at hlt
  refine ⟨s, S, hsp, hS, ?_, hlt, hinv⟩
  have hsmall := (hz _ _ hS).2
  unfold vpnOf at hlt ⊢
  unfold pageOfAddr
  simp only [pageSize] at *
  rw [BitVec.toInt_eq_toNat_of_lt (by omega)]
  exact (Int.ofNat_tdiv _ _).symm

/-! ## Events -/

/-- An event in which nothing is read back from swap by halves. -/
def LoadsWhole (k : Kernel) : Event → Prop
  | .load _ => ∀ w f c s S, k.here = .locked w f c → k.spaceOf k.currentThread = some s →
      k.space s = some S → k.Whole S w.toNat
  | .fault addr _ => k.swapChoice ≠ 1 → ∀ s S, k.spaceOf k.currentThread = some s →
      k.space s = some S → vpnOf addr < S.numPages → S.swapped (vpnOf addr) = false
  | _ => True

/-- The frame tables once a fault of the running thread has chosen frame `f`,
with the FIFO list completed. -/
def chosen (k k1 : Kernel) (w : Int) (f : Nat) : FrameTable :=
  { k1.frames with
    hand := Function.update k.frames.hand k.currentThread (some (w, f))
    pageList := if k.swapChoice = 1 then k1.pageList ++ [f] else k1.pageList }

theorem Inv.hand_of_atUser (hi : k.Inv) (hu : k.atUser) :
    k.frames.hand k.currentThread = none := by
  obtain ⟨T, hT, -⟩ := hi.running
  rw [frames_hand_current (by rw [hT]; rfl)]
  rcases hu with hu | hu <;> rw [hu] <;> rfl

theorem selectPage_step {clear : Prop} {k1 : Kernel} {addr : BitVec 32} {random : Nat}
    (hi : k.Inv) (hz : k.Sized) (hF : k.frames.Inv) (hu : k.atUser) (hflt : k.Faults addr)
    (h : (k.raise addr).selectPage random = .ok (f, k1)) :
    FrameTable.Step clear k.frames (k.chosen k1 (pageOfAddr addr) f) := by
  have ha := hi.atHome_of_atUser hu
  obtain ⟨T, hT, -⟩ := hi.running
  obtain ⟨s, S, hsp, hS, hpage, hlt, hinv⟩ := hflt.page hz ha
  have home : k.frames.home k.currentThread = some s :=
    frames_home.mpr ⟨T, hT, (spaceOf_of_live hT).symm.trans hsp⟩
  have empty := hi.hand_of_atUser hu
  have hplace : k.frames.place s (pageOfAddr addr).toNat = some
      ⟨(S.pageTable (vpnOf addr)).physicalPage, false, S.swapped (vpnOf addr)⟩ := by
    rw [hpage, Int.toNat_natCast]
    exact frames_place.mpr ⟨S, hS, AddrSpace.place_eq_some.mpr ⟨hlt, by rw [hinv]⟩⟩
  -- an invalid page has no frame
  have hout : Place.Out
      ⟨(S.pageTable (vpnOf addr)).physicalPage, false, S.swapped (vpnOf addr)⟩ := by
    rcases hF.places hplace with ho | ⟨g, hg⟩
    · exact ho
    · cases hg.2
  have nonneg : 0 ≤ pageOfAddr addr := by rw [hpage]; exact Int.natCast_nonneg _
  rcases selectPage_frames h with ⟨hfind, hk1⟩ | ⟨-, s', v', p', hvic, hpf, hfront, hk1⟩
  · have hstep : FrameTable.Step clear k.frames
        (k.frames.take k.currentThread (pageOfAddr addr) f) :=
      .take home empty nonneg hplace hout (find_lt hfind).1 (find_lt hfind).2
    have heq : k.chosen k1 (pageOfAddr addr) f =
        k.frames.take k.currentThread (pageOfAddr addr) f := by
      have hlist : k1.pageList = k.pageList := (congrArg FrameTable.pageList hk1 :)
      refine FrameTable.ext (congrArg FrameTable.home hk1 :) (congrArg FrameTable.place hk1 :) rfl
        (congrArg FrameTable.marked hk1 :) (congrArg FrameTable.ipt hk1 :)
        (congrArg FrameTable.fifo hk1 :) ?_
      simp [chosen, FrameTable.take, frames, hlist]
    rw [heq]
    exact hstep
  · have hstep : FrameTable.Step clear k.frames
        (k.frames.evict k.currentThread (pageOfAddr addr) f s' v') :=
      .evict home empty nonneg hplace hout hvic hpf fun hfifo => hfront (of_decide_eq_true hfifo)
    have heq : k.chosen k1 (pageOfAddr addr) f =
        k.frames.evict k.currentThread (pageOfAddr addr) f s' v' := by
      have hlist : k1.pageList = if k.swapChoice = 1 then k.pageList.tail else k.pageList :=
        (congrArg FrameTable.pageList hk1 :)
      refine FrameTable.ext (congrArg FrameTable.home hk1 :) (congrArg FrameTable.place hk1 :) rfl
        (congrArg FrameTable.marked hk1 :) (congrArg FrameTable.ipt hk1 :)
        (congrArg FrameTable.fifo hk1 :) ?_
      by_cases hfifo : k.swapChoice = 1 <;> simp [chosen, FrameTable.evict, frames, hlist, hfifo]
    rw [heq]
    exact hstep

theorem load_frames {clear : Prop} {fire : Bool} (hi : k.Inv) (hw : k.LoadsWhole (.load fire))
    (h : k.load fire = .ok (k', n)) : FrameTable.Step clear k.frames k'.frames := by
  obtain ⟨T, hT, -⟩ := hi.running
  obtain ⟨w, f, c, s, k1, hhere, hsp, hfill, rfl, -⟩ := load_cases h
  obtain ⟨p, hp, hk1⟩ := fillPage_frames_whole hfill fun S hS _ => hw w f c s S hhere hsp hS
  have home : k.frames.home k.currentThread = some s :=
    frames_home.mpr ⟨T, hT, (spaceOf_of_live hT).symm.trans hsp⟩
  have holds : k.frames.hand k.currentThread = some (w, f) := by
    rw [frames_hand_current (by rw [hT]; rfl), hhere]
    rfl
  have hm := fillPage_memoryOnly hfill
  have hcur : k1.currentThread = k.currentThread := (congrArg Kernel.currentThread hm.rest :)
  have hlive : (k1.live k1.currentThread).isSome := by
    rw [hm.loc.live, hcur, hT]
    rfl
  have heq : ((k1.lockV f).goTo (back c)).frames =
      k.frames.fill k.currentThread s w f p.swapped := by
    obtain ⟨st, r, l, hV⟩ := k1.lockV_eq f
    rw [hV]
    refine (frames_goTo (by exact hlive) _).trans ?_
    refine FrameTable.ext (congrArg FrameTable.home hk1 :) (congrArg FrameTable.place hk1 :) ?_
      (congrArg FrameTable.marked hk1 :) (congrArg FrameTable.ipt hk1 :)
      (congrArg FrameTable.fifo hk1 :) (congrArg FrameTable.pageList hk1 :)
    have hhand : k1.frames.hand = k.frames.hand := (congrArg FrameTable.hand hk1 :)
    change Function.update k1.frames.hand k1.currentThread (back c).flight =
      Function.update k.frames.hand k.currentThread none
    rw [hhand, hcur]
    cases c <;> rfl
  rw [heq]
  exact .fill home holds hp

theorem pageFault_frames {clear : Prop} {addr : BitVec 32} {random : Nat} (hi : k.Inv)
    (hz : k.Sized) (hF : k.frames.Inv) (hw : k.LoadsWhole (.fault addr random)) (hu : k.atUser)
    (hflt : k.Faults addr) (h : k.pageFault addr random = .ok k') :
    Relation.ReflTransGen (FrameTable.Step clear) k.frames k'.frames := by
  obtain ⟨T, hT, -⟩ := hi.running
  obtain ⟨s, f, k1, hsp, hsel, hbranch⟩ := pageFault_cases h
  have hstep : FrameTable.Step clear k.frames (k.chosen k1 (pageOfAddr addr) f) :=
    selectPage_step hi hz hF hu hflt hsel
  have hraise : Local k (k.raise addr) := .of_eq rfl rfl rfl rfl
  have hm := hraise.trans (selectPage_memoryOnly hsel).1.loc
  have hcur : k1.currentThread = k.currentThread := (congrArg Kernel.currentThread hm.rest :)
  have hhand : k1.frames.hand = k.frames.hand := by
    rw [selectPage_hand hsel]
    rfl
  rcases hbranch with ⟨hfifo, rfl⟩ | ⟨hfifo, h⟩
  · -- FIFO: the fault goes on to the page lock with the frame in hand
    have hlive : (k1.live k1.currentThread).isSome := by
      rw [hm.live, hcur, hT]
      rfl
    have heq : ((k1.appendPage f).goTo (.locking (pageOfAddr addr) f (k.here = .call))).frames =
        k.chosen k1 (pageOfAddr addr) f := by
      refine (frames_goTo (by exact hlive) _).trans ?_
      refine FrameTable.ext rfl rfl ?_ rfl rfl rfl ?_
      · change Function.update k1.frames.hand k1.currentThread _ =
          Function.update k.frames.hand k.currentThread _
        rw [hhand, hcur]
        rfl
      · change k1.pageList ++ [f] = if k.swapChoice = 1 then _ else _
        rw [if_pos hfifo]
    rw [heq]
    exact .single hstep
  · -- otherwise the page is mapped at once
    obtain ⟨s', S, hsp', hS, hpage, hlt, -⟩ := hflt.page hz (hi.atHome_of_atUser hu)
    cases hsp.symm.trans hsp'
    have hold : k.frames.place s (vpnOf addr) = some _ :=
      frames_place.mpr ⟨S, hS, AddrSpace.place_eq_some.mpr ⟨hlt, rfl⟩⟩
    have hvpn : (pageOfAddr addr).toNat = vpnOf addr := by rw [hpage, Int.toNat_natCast]
    obtain ⟨p, hp, hk'⟩ := fillPage_frames_whole h fun S1 hS1 hlt1 hsw => by
      have hfalse := selectPage_swapped hsel hold (hw hfifo s S hsp hS hlt)
        (frames_place.mpr ⟨S1, hS1, AddrSpace.place_eq_some.mpr ⟨hvpn ▸ hlt1, rfl⟩⟩)
      rw [hvpn, show S1.swapped (vpnOf addr) = false from hfalse] at hsw
      cases hsw
    have home : (k.chosen k1 (pageOfAddr addr) f).home k.currentThread = some s := by
      refine frames_home.mpr ⟨T, ?_, (spaceOf_of_live hT).symm.trans hsp⟩
      rw [hm.live]
      exact hT
    have hfill : FrameTable.Step clear (k.chosen k1 (pageOfAddr addr) f)
        ((k.chosen k1 (pageOfAddr addr) f).fill k.currentThread s (pageOfAddr addr) f p.swapped) :=
      .fill home (Function.update_self _ _ _) hp
    have empty := hi.hand_of_atUser hu
    have heq : (k.chosen k1 (pageOfAddr addr) f).fill k.currentThread s (pageOfAddr addr) f
        p.swapped = k'.frames := by
      rw [hk']
      refine FrameTable.ext rfl rfl ?_ rfl ?_ rfl ?_
      · change Function.update (Function.update k.frames.hand k.currentThread _) _ none =
          k1.frames.hand
        rw [Function.update_idem, hhand, ← empty, Function.update_eq_self]
      · rw [hcur]
        rfl
      · change (if k.swapChoice = 1 then _ else k1.pageList) = k1.pageList
        rw [if_neg hfifo]
    rw [heq] at hfill
    exact .tail (.single hstep) hfill

theorem lock_frames {fire : Bool} (hi : k.Inv) (h : k.lock fire = .ok (k', n)) :
    k'.frames = k.frames := by
  obtain ⟨T, hT, -⟩ := hi.running
  obtain ⟨w, f, c, hhere, ⟨rfl, -⟩ | ⟨rfl, -⟩⟩ := lock_cases h
  · rfl
  · have hl : (k.live k.currentThread).isSome := by rw [hT]; rfl
    have hsame : (Cont.locked w f c).flight = (k.lockTake f).here.flight := by
      change _ = k.here.flight
      rw [hhere]
      rfl
    exact (frames_goTo_same (k := k.lockTake f) hl hsame).trans rfl

/-- A new thread with a new space: no page of it is in memory. -/
theorem exec_frames {x : NoffFile} {junk : Nat → Bool} {k1 : Kernel} {r : BitVec 32} (hi : k.Inv)
    (h : k.newAddrSpace x junk = .ok (k.nextSpace, k1)) :
    FrameTable.Step (∀ v, junk v = false) k.frames
      (((k1.writeRegister 2 r).newThread k.nextSpace).readyToRun k.nextThread).frames := by
  obtain ⟨hs, hcont, -⟩ := exec_spawned (r := r) h
  obtain ⟨T, numPages, i, -, -, -, -, hk1⟩ := newAddrSpace_eq_ok h
  have hnone := hi.procs.live_nextThread
  have heq : (((k1.writeRegister 2 r).newThread k.nextSpace).readyToRun k.nextThread).frames =
      k.frames.build k.nextThread k.nextSpace
        (AddrSpace.new x numPages junk i (swapName T.ID)).place := by
    refine FrameTable.ext (funext fun t => ?_) (funext fun s' => ?_) (funext fun t => ?_)
      (by rw [hk1]; rfl) (by rw [hk1]; rfl) (by rw [hk1]; rfl) (by rw [hk1]; rfl)
    · change Option.bind (Kernel.live _ t) _ = Function.update k.frames.home k.nextThread _ t
      rw [hs.live hi.procs, Function.update_apply]
      split <;> rfl
    · funext v
      change Option.bind (k1.space s') _ = Function.update k.frames.place k.nextSpace _ s' v
      rw [hk1]
      dsimp only
      rw [Function.update_apply, Function.update_apply]
      split <;> rfl
    · change Option.bind (Kernel.live _ t) (fun _ => (Kernel.cont _ t).flight) = k.frames.hand t
      rw [hs.live hi.procs, hcont, Function.update_apply]
      change _ = (k.live t).bind fun _ => (k.cont t).flight
      by_cases ht : t = k.nextThread
      · rw [if_pos ht, if_pos ht, ht, hnone]
        rfl
      · rw [if_neg ht, if_neg ht]
  rw [heq]
  refine .build ?_ (fun t' ht' => ?_) (fun v => ?_) (fun v p hp => ?_) fun hclear v p hp => ?_
  · change (k.live k.nextThread).bind _ = none
    rw [hnone]
    rfl
  · obtain ⟨T', hT', hsp⟩ := frames_home.mp ht'
    obtain ⟨s', hs', hsome⟩ := hi.procs.space hT'
    cases hsp.symm.trans hs'
    rw [hi.procs.freshSpace _ (Nat.le_refl _)] at hsome
    cases hsome
  · change (k.space k.nextSpace).bind _ = none
    rw [hi.procs.freshSpace _ (Nat.le_refl _)]
    rfl
  · obtain ⟨-, rfl⟩ := AddrSpace.place_eq_some.mp hp
    exact ⟨rfl, rfl⟩
  · obtain ⟨-, rfl⟩ := AddrSpace.place_eq_some.mp hp
    exact hclear v

theorem join_frames {c : ThreadPtr} (k : Kernel) : { k with
    thread := fun x => (k.thread x).map (joinEffect k.currentThread c x) }.frames = k.frames := by
  refine FrameTable.ext (funext fun t => ?_) rfl (funext fun t => ?_) rfl rfl rfl rfl
  · change Option.bind (Kernel.live _ t) _ = (k.live t).bind _
    rw [live_map]
    cases k.live t <;> rfl
  · change Option.bind (Kernel.live _ t) _ = (k.live t).bind _
    rw [live_map]
    cases k.live t <;> rfl

/-- The end of a process: its space goes, with the marks of its frames. -/
theorem terminate_frames {clear : Prop} (hi : k.Inv) (hz : k.Sized) (ha : k.AtHome)
    (hc : k.here.flight = none) (h : k.terminate = .ok k') :
    FrameTable.Step clear k.frames k'.frames := by
  obtain ⟨T, hT, hTj⟩ := hi.running
  obtain ⟨-, hlive⟩ := hi.procs.terminate hT hTj ha.dying h
  obtain ⟨s, hs, -⟩ := hi.procs.space hT
  obtain ⟨S, m, st, hS, hm, hk⟩ := terminate_eq_ok (live_eq_some hT).2 hs h
  have empty : k.frames.hand k.currentThread = none := by
    rw [frames_hand_current (by rw [hT]; rfl), hc]
  have heq : k'.frames = k.frames.remove k.currentThread s m := by
    have hcont : k'.cont = k.cont := by rw [hk]
    refine FrameTable.ext (funext fun t => ?_) (funext fun s' => ?_) (funext fun t => ?_)
      (by rw [hk]; rfl) (by rw [hk]; rfl) (by rw [hk]; rfl) (by rw [hk]; rfl)
    · change (k'.live t).bind _ = Function.update k.frames.home k.currentThread none t
      rw [hlive, Function.update_apply]
      split
      · rfl
      · change _ = (k.live t).bind _
        cases k.live t with
        | none => rfl
        | some X => simp only [Option.map_some, Option.bind_some, wakeEffect]; split <;> rfl
    · funext v
      have hspace : k'.space = Function.update k.space s none := by rw [hk]
      change (k'.space s').bind _ = Function.update k.frames.place s (fun _ => none) s' v
      rw [hspace, Function.update_apply, Function.update_apply]
      split <;> rfl
    · change (k'.live t).bind (fun _ => (k'.cont t).flight) = k.frames.hand t
      rw [hlive, hcont]
      split
      · rename_i ht
        rw [ht, empty]
        rfl
      · change _ = (k.live t).bind _
        cases k.live t <;> rfl
  rw [heq]
  refine .remove (frames_home.mpr ⟨T, hT, hs⟩) empty fun f => ?_
  rw [AddrSpace.clearFrames_eq_ok (hz _ _ hS).1 hm]
  refine and_congr_right fun _ => ⟨fun h v p hp => ?_, fun h v hv => ?_⟩
  · obtain ⟨S', hS', hp⟩ := frames_place.mp hp
    cases hS.symm.trans hS'
    obtain ⟨hv, rfl⟩ := AddrSpace.place_eq_some.mp hp
    exact h v hv
  · exact h v _ (frames_place.mpr ⟨S, hS, AddrSpace.place_eq_some.mpr ⟨hv, rfl⟩⟩)

theorem create_frames (hi : k.Inv) (hc : k.here.flight = none) (h : k.create = .ok k') :
    (k'.goTo .user).frames = k.frames := by
  obtain ⟨T, hT, -⟩ := hi.running
  obtain ⟨s, S, -, -, hk, hlive, -⟩ := create_eq_ok h
  have hcont : k'.cont = k.cont := (congrArg Kernel.cont hk :)
  have hcur : k'.currentThread = k.currentThread := (congrArg Kernel.currentThread hk :)
  have hl : (k'.live k'.currentThread).isSome := by rw [hlive, hcur, hT]; rfl
  have hsame : k'.here = k.here := by unfold here; rw [hcont, hcur]
  rw [frames_goTo_same hl (by rw [hsame, hc]; rfl)]
  exact frames_eq hlive hcont (congrArg Kernel.space hk :) (congrArg Kernel.memMap hk :)
    (congrArg Kernel.ipt hk :) (congrArg Kernel.swapChoice hk :) (congrArg Kernel.pageList hk :)

theorem act_frames (hi : k.Inv) (hz : k.Sized) (hF : k.frames.Inv) (hw : k.LoadsWhole e)
    (h : k.act e = .ok (k', n)) :
    Relation.ReflTransGen (FrameTable.Step e.Clear) k.frames k'.frames := by
  obtain ⟨T, hT, -⟩ := hi.running
  have hl : (k.live k.currentThread).isSome := by rw [hT]; rfl
  -- where the running thread only moves along
  have hmove {c : Cont} (c' : Cont) (hc : k.here = c) (hsame : c'.flight = c.flight)
      (r : Registers) :
      ({ k with registers := r }.goTo c').frames = k.frames := by
    have := frames_goTo_same (k := { k with registers := r }) hl (c := c') (by
      change _ = k.here.flight
      rw [hc, hsame])
    exact this
  have hidle {F : FrameTable} (h : F = k.frames) :
      Relation.ReflTransGen (FrameTable.Step e.Clear) k.frames F := h ▸ .refl
  cases acts_of_act h with
  | instr _ h1 =>
    have hsame := accesses_frames h1
    exact hidle hsame
  | tick _ => exact .refl
  | fault hu hflt h1 => exact pageFault_frames hi hz hF hw hu hflt h1
  | lock h => exact hidle (lock_frames hi h)
  | load h => exact .single (load_frames hi hw h)
  | trap hu => exact hidle (hmove .call hu rfl _)
  | copy _ h1 => exact hidle (access_frames h1)
  | @ret result hc =>
    cases result with
    | none => exact hidle (hmove .user hc rfl k.registers)
    | some r => exact hidle (hmove .user hc rfl (k.registers.write 2 r))
  | exec hc h =>
    obtain ⟨hi', ha'⟩ := hi.back hc
    have hgo : (k.goTo .user).frames = k.frames := hmove .user hc rfl k.registers
    rcases exec_cases hi' ha' h with ⟨-, rfl, -⟩ | ⟨x, k1, -, hnew, -, rfl⟩
    · exact hidle hgo
    · rw [← hgo]
      exact .single (exec_frames hi' hnew)
  | join hc h =>
    obtain ⟨hi', ha'⟩ := hi.back hc
    have hgo : (k.goTo .user).frames = k.frames := hmove .user hc rfl k.registers
    rcases join_target hi' ha' h with ⟨-, rfl, -⟩ | ⟨c, -, -, rfl⟩
    · exact hidle hgo
    · exact hidle ((join_frames (k.goTo .user)).trans hgo)
  | yield hc => exact hidle (hmove .user hc rfl k.registers)
  | exit hc h1 =>
    exact .single (terminate_frames hi hz (hi.atHome_of_atUser (.inr hc)) (by rw [hc]; rfl) h1)
  | @fatal addr _ _ hu h1 =>
    have ha := hi.atHome_of_atUser hu
    have hr : (k.raise addr).Inv := hi.registers _ (by simp)
    have hc : (k.raise addr).here.flight = none := by
      change k.here.flight = none
      rcases hu with hu | hu <;> rw [hu] <;> rfl
    have hstep : FrameTable.Step True (k.raise addr).frames k'.frames :=
      terminate_frames hr hz ⟨ha.dying, ha.table⟩ hc h1
    exact .single hstep
  | enable hc => exact hidle (hmove .enabled hc rfl k.registers)
  | create hc h1 => exact hidle (create_frames hi (by rw [hc]; rfl) h1)

/-- A step of the kernel is a sequence of abstract steps. -/
theorem step_frames (hi : k.Inv) (hz : k.Sized) (hF : k.frames.Inv) (hw : k.LoadsWhole e)
    (h : k.step e = .ok k') :
    Relation.ReflTransGen (FrameTable.Step e.Clear) k.frames k'.frames := by
  obtain ⟨⟨k1, n⟩, hact, h⟩ := bind_eq_ok.mp h
  rw [dispatch_frames h]
  exact act_frames hi hz hF hw hact

/-- No page of the first space is in memory, and its flags are what the constructor
found. -/
theorem boot_place {c : Config} {v : Nat} {p : Place} (h : boot c = .ok k)
    (hp : k.frames.place s v = some p) : p.Out ∧ p.swapped = c.junk v := by
  obtain ⟨x, numPages, -, -, hk⟩ := boot_eq_ok h
  obtain ⟨S, hS, hp⟩ := frames_place.mp hp
  rw [hk] at hS
  simp only [Function.update_apply] at hS
  split at hS
  · cases hS
    obtain ⟨-, rfl⟩ := AddrSpace.place_eq_some.mp hp
    exact ⟨⟨rfl, rfl⟩, rfl⟩
  · cases hS

theorem boot_frames {c : Config} (h : boot c = .ok k) : k.frames.Inv := by
  obtain ⟨x, numPages, -, -, hk⟩ := boot_eq_ok h
  have hplace {s : SpacePtr} {v : Nat} {p : Place} (hp : k.frames.place s v = some p) : p.Out :=
    (boot_place h hp).1
  have hhand (t : ThreadPtr) : k.frames.hand t = none := by
    change (k.live t).bind _ = none
    rw [show k.cont t = .user by rw [hk]; rfl]
    cases k.live t <;> rfl
  have hmarked (f : Nat) : k.frames.marked f = false := by rw [hk]; rfl
  refine ⟨⟨?unique, fun f => ?marked⟩, ?range, ?homes, ?places, ?owner, ?hands, ?listed, ?list⟩
  case unique =>
    intro f h1 h2 hh1
    cases h1 with
    | page s v =>
      obtain ⟨p, hp, hf⟩ := hh1
      exact absurd hf ((hplace hp).frame_ne f)
    | fault t =>
      obtain ⟨w, hw⟩ := hh1
      rw [hhand] at hw
      cases hw
  case marked =>
    rw [hmarked]
    refine ⟨nofun, ?_⟩
    intro ⟨h1, hh1⟩
    cases h1 with
    | page s v =>
      obtain ⟨p, hp, hf⟩ := hh1
      exact absurd hf ((hplace hp).frame_ne f)
    | fault t =>
      obtain ⟨w, hw⟩ := hh1
      rw [hhand] at hw
      cases hw
  case range => intro f hf; rw [hmarked] at hf; cases hf
  case homes =>
    intro t t' s ht ht'
    obtain ⟨T, hT, hs⟩ := frames_home.mp ht
    obtain ⟨T', hT', hs'⟩ := frames_home.mp ht'
    exact (boot_inv h).procs.spaceInj hT hT' hs hs'
  case places => intro s v p hp; exact .inl (hplace hp)
  case owner => intro s v p f hp hf; exact absurd (hplace hp) hf.not_out
  case hands => intro t w f hw; rw [hhand] at hw; cases hw
  case listed => intro _ f hf; rw [hmarked] at hf; cases hf
  case list => intro f hf; rw [hk] at hf; cases hf

/-- What is known of the frame tables along a run. -/
structure Framed (k : Kernel) : Prop where
  inv : k.Inv
  sized : k.Sized
  frames : k.frames.Inv

theorem Framed.step (hk : k.Framed) (hw : k.LoadsWhole e) (h : k.step e = .ok k') : k'.Framed :=
  ⟨step_inv hk.inv h, hk.sized.step hk.inv h,
    hk.frames.steps (step_frames hk.inv hk.sized hk.frames hw h)⟩

theorem boot_framed {c : Config} (h : boot c = .ok k) : k.Framed :=
  ⟨boot_inv h, boot_sized h, boot_frames h⟩

end Kernel
end Nachos

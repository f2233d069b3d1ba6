import Nachos.Machine.Flat
import Nachos.Userprog.Isolation
import Nachos.Userprog.UserCode
import Nachos.Userprog.UserMemory

/-! What a process has in memory. Whichever of its pages are in memory, an address
space stands for one image: the pages that are there have it in their frames, the
others would be built with it. Only the process's own stores change the image, and
only putting out a page that has been stored to loses it. -/

namespace Nachos
open Lib

/-- The bytes of page `v` of an image. -/
def pageBytes (image : Nat → UInt8) (v : Nat) : List UInt8 :=
  (List.range pageSize).map fun j => image (v * pageSize + j)

theorem pageBytes_congr {image image' : Nat → UInt8} {v : Nat}
    (h : ∀ j < pageSize, image' (v * pageSize + j) = image (v * pageSize + j)) :
    pageBytes image' v = pageBytes image v :=
  List.map_congr_left fun j hj => h j (List.mem_range.mp hj)

theorem frameBytes_eq_pageBytes {mem image : Nat → UInt8} {f v : Nat} :
    frameBytes mem f = pageBytes image v ↔
      ∀ j < pageSize, mem (pageSize * f + j) = image (v * pageSize + j) := by
  constructor
  · intro h j hj
    have hget := congrArg (fun l => l[j]?) h
    simpa [frameBytes, pageBytes, List.getElem?_range hj] using hget
  · exact fun h => List.map_congr_left fun j hj => h j (List.mem_range.mp hj)

/-- An image behind the stores of an event. -/
def Event.stores (image : Nat → UInt8) : Event → Nat → UInt8
  | .instr accesses _ => accesses.foldl Access.store image
  | .copy a => Access.store image a
  | _ => image

/-- The address space stands for the image, with main memory `mem`. -/
structure AddrSpace.Holds (S : AddrSpace) (mem image : Nat → UInt8) : Prop where
  writable : ∀ v, (S.pageTable v).readOnly = false
  loaded : ∀ v < S.numPages, ∀ f : Nat, (S.pageTable v).valid = true →
    (S.pageTable v).physicalPage = f → frameBytes mem f = pageBytes image v
  missing : ∀ v < S.numPages, (S.pageTable v).valid = false → S.pageImage v = pageBytes image v

namespace AddrSpace

variable {S S' : AddrSpace} {mem mem' image image' : Nat → UInt8} {v f : Nat}

/-- The memory of the machine while the space is in use. -/
def memory (S : AddrSpace) (mem : Nat → UInt8) : Memory := ⟨mem, S.pageTable, S.numPages⟩

/-- The space behind accesses that left `image'`. -/
theorem Holds.of_memory (h : S.Holds mem image) (hs : (S.memory mem).Steady (S'.memory mem'))
    (hfixed : S'.fixed = S.fixed) (hh : (S'.memory mem').Holds image')
    (hframe : ∀ v f : Nat, v < S.numPages → (S.pageTable v).valid = true →
      (S.pageTable v).physicalPage = f → f < numPhysPages)
    (hout : ∀ v, ¬ (S.memory mem).Resident v → pageBytes image' v = pageBytes image v) :
    S'.Holds mem' image' := by
  have hn : S'.numPages = S.numPages := hs.alike.size
  refine ⟨fun v => (hs.alike.readOnly v).trans (h.writable v), fun v hv f hvalid hphys => ?_,
    fun v hv hvalid => ?_⟩
  · have hres : (S'.memory mem').Resident v := ⟨hv, hvalid⟩
    have hphys' : (S.pageTable v).physicalPage = f := (hs.frame v).symm.trans hphys
    have hlt := hframe v f (hn ▸ hv) ((hs.resident v).mp hres).2 hphys'
    have hf : (S'.memory mem').frameOf v = f := by
      change (toUnsigned (S'.pageTable v).physicalPage).toNat = f
      rw [hphys, toUnsigned_of_nonneg (by omega) (by unfold numPhysPages at hlt; omega)]
      exact Int.toNat_natCast f
    refine frameBytes_eq_pageBytes.mpr fun j hj => ?_
    rw [← hh.bytes v hres j hj, hf, Nat.mul_comm]
    rfl
  · have hres : ¬ (S.memory mem).Resident v := by
      intro hr
      have hvalid' : (S'.pageTable v).valid = true := ((hs.resident v).mpr hr).2
      exact absurd (hvalid.symm.trans hvalid') (by simp)
    have hvalid' : (S.pageTable v).valid = false := by
      rw [← Bool.not_eq_true]
      exact fun ht => hres ⟨Nat.lt_of_lt_of_eq hv hn, ht⟩
    rw [pageImage_congr hfixed, hout v hres]
    exact h.missing v (hn ▸ hv) hvalid'

/-- Memory may change outside the frames of the space. -/
theorem Holds.frames_congr (h : S.Holds mem image)
    (hm : ∀ v f : Nat, v < S.numPages → (S.pageTable v).valid = true →
      (S.pageTable v).physicalPage = f → frameBytes mem' f = frameBytes mem f) :
    S.Holds mem' image :=
  ⟨h.writable, fun v hv f hvalid hphys =>
    (hm v f hv hvalid hphys).trans (h.loaded v hv f hvalid hphys), h.missing⟩

/-- A page that is as it would be built may go. -/
theorem Holds.setEvicted (h : S.Holds mem image) (hpage : S.pageImage v = pageBytes image v) :
    (S.setEvicted v).Holds mem image := by
  have hentry (w : Nat) : (S.setEvicted v).pageTable w = if w = v then
      { S.pageTable v with valid := false, dirty := false, physicalPage := -1 }
      else S.pageTable w := Function.update_apply _ _ _ _
  refine ⟨fun w => ?_, fun w hw f hvalid hphys => ?_, fun w hw hvalid => ?_⟩
  · rw [hentry]
    split
    · exact h.writable v
    · exact h.writable w
  · rw [hentry] at hvalid hphys
    split at hvalid
    · cases hvalid
    · rename_i hne
      rw [if_neg hne] at hphys
      exact h.loaded w hw f hvalid hphys
  · rw [hentry] at hvalid
    split at hvalid
    · rename_i he
      subst he
      exact hpage
    · exact h.missing w hw hvalid

/-- A page that comes in with its bytes. -/
theorem Holds.setLoaded (h : S.Holds mem image) (hbytes : frameBytes mem' f = pageBytes image v)
    (hm : ∀ w g : Nat, w < S.numPages → w ≠ v → (S.pageTable w).valid = true →
      (S.pageTable w).physicalPage = g → frameBytes mem' g = frameBytes mem g) :
    ((S.setEntry v fun e => { e with physicalPage := f }).setLoaded v).Holds mem' image := by
  have hentry (w : Nat) :
      ((S.setEntry v fun e => { e with physicalPage := f }).setLoaded v).pageTable w =
        if w = v then { S.pageTable v with physicalPage := f, valid := true, dirty := false }
        else S.pageTable w := by
    simp only [AddrSpace.setLoaded, AddrSpace.setEntry, Function.update_apply, if_true]
    split
    · rfl
    · rfl
  refine ⟨fun w => ?_, fun w hw g hvalid hphys => ?_, fun w hw hvalid => ?_⟩
  · rw [hentry]
    split
    · exact h.writable v
    · exact h.writable w
  · rw [hentry] at hvalid hphys
    split at hvalid
    · rename_i he
      rw [if_pos he] at hphys
      have hg : (f : Int) = g := hphys
      cases Int.ofNat.inj hg
      rw [he]
      exact hbytes
    · rename_i hne
      rw [if_neg hne] at hphys
      exact (hm w g hw hne hvalid hphys).trans (h.loaded w hw g hvalid hphys)
  · rw [hentry] at hvalid
    split at hvalid
    · cases hvalid
    · exact h.missing w hw hvalid

end AddrSpace

namespace Kernel

variable {k k' k1 : Kernel} {n : Next} {e : Event} {s s' : SpacePtr} {S S' : AddrSpace}
  {image : Nat → UInt8} {v f g random : Nat}

/-! ## The process's own accesses -/

theorem place_of_valid (hf : k.frames.Inv) (hS : k.space s = some S) (hv : v < S.numPages)
    (hvalid : (S.pageTable v).valid = true) :
    ∃ f, (S.pageTable v).physicalPage = (f : Nat) ∧ f < numPhysPages ∧
      k.frames.Holds f (.page s v) := by
  have hp := frames_place.mpr ⟨S, hS, AddrSpace.place_eq_some.mpr ⟨hv, rfl⟩⟩
  rcases hf.places hp with ho | ⟨g, hg⟩
  · exact absurd (hvalid.symm.trans ho.2) (by simp)
  · have hheld : k.frames.Holds g (.page s v) := ⟨_, hp, hg.1⟩
    exact ⟨g, hg.1, hf.range ((hf.own.marked_iff g).mpr ⟨_, hheld⟩), hheld⟩

theorem memory_holds (hf : k.frames.Inv) (hS : k.space s = some S)
    (h : S.Holds k.mainMemory image) : (S.memory k.mainMemory).Holds image := by
  have hframe {v f : Nat} (hphys : (S.pageTable v).physicalPage = f) (hlt : f < numPhysPages) :
      toUnsigned (S.pageTable v).physicalPage = f := by
    rw [hphys, toUnsigned_of_nonneg (by omega) (by unfold numPhysPages at hlt; omega)]
  refine ⟨fun v hv => ?_, fun v w hv hw he => ?_, fun v hv j hj => ?_⟩
  · obtain ⟨f, hphys, hlt, -⟩ := place_of_valid hf hS hv.1 hv.2
    change toUnsigned (S.pageTable v).physicalPage < _
    rw [hframe hphys hlt]
    exact_mod_cast hlt
  · obtain ⟨f, hphys, hlt, hheld⟩ := place_of_valid hf hS hv.1 hv.2
    obtain ⟨g, hphys', hlt', hheld'⟩ := place_of_valid hf hS hw.1 hw.2
    change (toUnsigned (S.pageTable v).physicalPage).toNat =
      (toUnsigned (S.pageTable w).physicalPage).toNat at he
    rw [hframe hphys hlt, hframe hphys' hlt', Int.toNat_natCast, Int.toNat_natCast] at he
    subst he
    cases hf.own.unique hheld hheld'
    rfl
  · obtain ⟨f, hphys, hlt, -⟩ := place_of_valid hf hS hv.1 hv.2
    have hbytes := frameBytes_eq_pageBytes.mp (h.loaded v hv.1 f hv.2 hphys) j hj
    change k.mainMemory ((toUnsigned (S.pageTable v).physicalPage).toNat * pageSize + j) = _
    rw [hframe hphys hlt, Int.toNat_natCast, Nat.mul_comm]
    exact hbytes

/-- A store in page `w` leaves the other pages of the image as they are. -/
theorem pageBytes_store {addr : BitVec 32} {bs : List UInt8}
    (hin : addr.toNat % pageSize + bs.length ≤ pageSize) (hne : v ≠ vpnOf addr) :
    pageBytes (overlay image addr.toNat bs) v = pageBytes image v := by
  refine pageBytes_congr fun j hj => ?_
  have haddr := Memory.vpnOf_add addr
  simp only [pageSize] at *
  rcases Nat.lt_or_gt_of_ne hne with hlt | hgt
  · exact overlay_of_lt (by omega)
  · exact overlay_of_le (by omega)

theorem access_holds {a : Access} (hf : k.frames.Inv) (ht : k.machineTable = .ok (s, S))
    (hsize : k.pageTableSize = S.numPages) (hh : S.Holds k.mainMemory image)
    (h : k.access a = .ok k') :
    ∃ S', k'.machineTable = .ok (s, S') ∧ k'.pageTableSize = S'.numPages ∧
      S'.Holds k'.mainMemory (Access.store image a) := by
  obtain ⟨hpt, hS⟩ := machineTable_eq_ok.mp ht
  have hmem := memory_holds hf hS hh
  have hframe (v f : Nat) (hv : v < S.numPages) (hvalid : (S.pageTable v).valid = true)
      (hphys : (S.pageTable v).physicalPage = f) : f < numPhysPages := by
    obtain ⟨g, hphys', hlt, -⟩ := place_of_valid hf hS hv hvalid
    have : (g : Int) = f := hphys'.symm.trans hphys
    omega
  have htr (addr : BitVec 32) (width : Width) (writing : Bool) :
      k.translate addr width writing =
        .ok ((S.memory k.mainMemory).translate addr width writing) := by
    unfold translate
    rw [ht, hsize]
    rfl
  -- the space with the entry of `addr` touched
  have hset (addr : BitVec 32) (entry : TranslationEntry) (mem : Nat → UInt8) :
      { k.setEntry addr entry with mainMemory := mem }.machineTable =
        .ok (s, { S with pageTable := Function.update S.pageTable (vpnOf addr) entry }) := by
    rw [setEntry_eq ht]
    exact machineTable_eq_ok.mpr ⟨hpt, Function.update_self _ _ _⟩
  cases a with
  | read addr width =>
    simp only [access, htr] at h
    rcases Memory.translate_cases hmem addr width false with
      h₀ | ⟨which, -, h₀⟩ | ⟨-, halign, hres, h₀⟩
    · rw [h₀] at h
      cases h
    · rw [h₀] at h
      cases h
    · rw [h₀] at h
      cases h
      have hs := (S.memory k.mainMemory).steady_setEntry addr false
      refine ⟨_, hset addr _ k.mainMemory, ?_, ?_⟩
      · rw [setEntry_eq ht]
        exact hsize
      · rw [setEntry_memory]
        exact hh.of_memory hs rfl (hs.holds rfl hmem) hframe fun _ _ => rfl
  | write addr width value =>
    simp only [access, htr] at h
    rcases Memory.translate_cases hmem addr width true with
      h₀ | ⟨which, -, h₀⟩ | ⟨-, halign, hres, h₀⟩
    · rw [h₀] at h
      cases h
    · rw [h₀] at h
      cases h
    · rw [h₀] at h
      cases h
      have hs := (S.memory k.mainMemory).steady_setEntry addr true
      have hin : addr.toNat % pageSize + (valueBytes width value).length ≤ pageSize := by
        rw [valueBytes_length]
        exact offset_add_size_le halign
      refine ⟨_, hset addr _ _, ?_, ?_⟩
      · rw [setEntry_eq ht]
        exact hsize
      · let entry := (S.memory k.mainMemory).touched addr true
        let S' : AddrSpace :=
          { S with pageTable := Function.update S.pageTable (vpnOf addr) entry }
        let mem' := overlay k.mainMemory ((S.memory k.mainMemory).frameOf (vpnOf addr) * pageSize +
          addr.toNat % pageSize) (valueBytes width value)
        have hs' : (S.memory k.mainMemory).Steady (S'.memory mem') :=
          ⟨⟨hs.alike.size, hs.alike.readOnly⟩, hs.resident, hs.frameOf, hs.frame⟩
        change S'.Holds mem' _
        refine hh.of_memory hs' rfl (hmem.store hs' hin hres rfl) hframe fun v hv => ?_
        exact pageBytes_store hin fun he => hv (he ▸ hres)

theorem accesses_holds {as : List Access} (hf : k.frames.Inv) (ht : k.machineTable = .ok (s, S))
    (hsize : k.pageTableSize = S.numPages) (hh : S.Holds k.mainMemory image)
    (h : as.foldlM access k = .ok k') :
    ∃ S', k'.machineTable = .ok (s, S') ∧ k'.pageTableSize = S'.numPages ∧
      S'.Holds k'.mainMemory (as.foldl Access.store image) := by
  induction as generalizing k S image with
  | nil =>
    cases h
    exact ⟨S, ht, hsize, hh⟩
  | cons a as ih =>
    obtain ⟨k1, h1, h⟩ := bind_eq_ok.mp h
    obtain ⟨S1, ht1, hsize1, hh1⟩ := access_holds hf ht hsize hh h1
    exact ih (access_frames h1 ▸ hf) ht1 hsize1 hh1 h

theorem access_other {a : Access} (ht : k.machineTable = .ok (s', S')) (hne : s ≠ s')
    (h : k.access a = .ok k') : k'.space s = k.space s ∧ k'.pageTable = k.pageTable := by
  obtain ⟨addr, width, writing, physAddr, entry, mem, -, rfl⟩ := access_eq_ok h
  rw [setEntry_eq ht]
  exact ⟨Function.update_of_ne hne _ _, rfl⟩

theorem accesses_other {as : List Access} (hpt : k.pageTable = some s') (hne : s ≠ s')
    (h : as.foldlM access k = .ok k') : k'.space s = k.space s := by
  induction as generalizing k with
  | nil =>
    cases h
    rfl
  | cons a as ih =>
    obtain ⟨k1, h1, h⟩ := bind_eq_ok.mp h
    obtain ⟨S', hS'⟩ : ∃ S', k.machineTable = .ok (s', S') := by
      obtain ⟨addr, width, writing, physAddr, entry, mem, htr, -⟩ := access_eq_ok h1
      unfold translate at htr
      split at htr
      · cases htr
      · rename_i s1 S1 ht
        cases hpt.symm.trans (machineTable_eq_ok.mp ht).1
        exact ⟨S1, ht⟩
    obtain ⟨hspace, htable⟩ := access_other hS' hne h1
    exact (ih (htable.trans hpt) h).trans hspace

/-! ## Page faults -/

/-- No page that has been stored to is put out. -/
def Spares (k : Kernel) : Event → Prop
  | .fault addr random => ∀ f k1 s v S, (k.raise addr).selectPage random = .ok (f, k1) →
      k.space s = some S → k.Resident s v f → frameBytes k.mainMemory f = S.pageImage v
  | _ => True

theorem selectPage_holds (hf : k.frames.Inv) (hS : k.space s = some S)
    (hh : S.Holds k.mainMemory image) (hsel : k.selectPage random = .ok (f, k1))
    (hspare : ∀ v, k.Resident s v f → frameBytes k.mainMemory f = S.pageImage v) :
    ∃ S1, k1.space s = some S1 ∧ S1.Holds k1.mainMemory image := by
  rw [selectPage_mainMemory hsel]
  rcases selectPage_cases hsel with ⟨-, rfl⟩ | ⟨-, k2, s', hv, -, hout⟩
  · exact ⟨S, hS, hh⟩
  · have hspace : k2.space = k.space := by
      rcases victim_cases hv with ⟨-, -, rfl⟩ | ⟨-, -, rfl⟩
      · rfl
      · rfl
    obtain ⟨S', page, hS', hpage, rfl⟩ := swapout_cases hout
    have hset (b : Bool) : ((if b then k2.writeSwap S' page f else k2).setSpace s'
        (S'.setEvicted page)).space = Function.update k.space s' (some (S'.setEvicted page)) := by
      cases b
      · rw [← hspace]
        rfl
      · rw [← hspace]
        rfl
    rw [hset]
    by_cases hs : s = s'
    · subst hs
      rw [hspace] at hS'
      cases hS.symm.trans hS'
      refine ⟨_, Function.update_self _ _ _, hh.setEvicted ?_⟩
      -- the page that goes is in the frame
      obtain ⟨hlt, hphys⟩ := AddrSpace.pageOf_eq_some hpage
      have hp := frames_place.mpr ⟨S, hS, AddrSpace.place_eq_some.mpr ⟨hlt, rfl⟩⟩
      have hvalid := (hf.in_of_frame hp hphys).2
      rw [← hspare page ⟨S, hS, hlt, hvalid, hphys⟩]
      exact hh.loaded page hlt f hvalid hphys
    · exact ⟨S, (Function.update_of_ne hs _ _).trans hS, hh⟩

theorem fillPage_holds {w : Int} (hu : k.frames.Unswapped)
    (ht : ∀ S, k.space s' = some S → S.Tame) (hg : g < numPhysPages) (hS : k.space s = some S)
    (hh : S.Holds k.mainMemory image)
    (hother : ∀ v f : Nat, v < S.numPages → (S.pageTable v).valid = true →
      (S.pageTable v).physicalPage = f → f ≠ g)
    (hmissing : s = s' → (S.pageTable w.toNat).valid = false)
    (h : k.fillPage s' w g = .ok k') :
    ∃ S', k'.space s = some S' ∧ S'.Holds k'.mainMemory image := by
  have hkept (v f : Nat) (hv : v < S.numPages) (hvalid : (S.pageTable v).valid = true)
      (hphys : (S.pageTable v).physicalPage = f) :
      frameBytes k'.mainMemory f = frameBytes k.mainMemory f :=
    fillPage_outside hu ht hg h (hother v f hv hvalid hphys)
  obtain ⟨S0, S1, k1, hS0, h0, hlt, rfl, rfl, ⟨hsw, -⟩ | ⟨-, hload⟩⟩ := fillPage_cases h
  · have hp := frames_place.mpr ⟨S0, hS0, AddrSpace.place_eq_some.mpr
      ⟨(by omega : w.toNat < S0.numPages), rfl⟩⟩
    exact absurd (hsw.symm.trans (hu hp)) (by simp)
  · unfold loadImage at hload
    obtain ⟨mem, hbuild, hload⟩ := bind_eq_ok.mp hload
    cases hload
    by_cases hs : s = s'
    · subst hs
      cases hS.symm.trans hS0
      refine ⟨_, Function.update_self _ _ _, hh.setLoaded ?_ fun v f hv _ => hkept v f hv⟩
      have himage : frameBytes mem g = S.pageImage w.toNat :=
        (AddrSpace.frameBytes_buildPage hg hbuild).trans (AddrSpace.pageImage_congr rfl _)
      exact himage.trans (hh.missing _ (by omega) (hmissing rfl))
    · exact ⟨S, (Function.update_of_ne hs _ _).trans hS, hh.frames_congr hkept⟩

/-- The frame that has been chosen is that of no page in memory. -/
theorem selectPage_vacant (hf : k.frames.Inv) (hsel : k.selectPage random = .ok (g, k1))
    (hS : k1.space s = some S) (hv : v < S.numPages) (hvalid : (S.pageTable v).valid = true)
    (hphys : (S.pageTable v).physicalPage = f) : f ≠ g := by
  have hp : k1.frames.place s v = some _ :=
    frames_place.mpr ⟨S, hS, AddrSpace.place_eq_some.mpr ⟨hv, rfl⟩⟩
  rcases selectPage_place hsel s v with hsame | hout
  · have hG : k.Guards s v f (frameBytes k.mainMemory f) :=
      ⟨_, hsame.symm.trans hp, .inr ⟨⟨hphys, hvalid⟩, rfl⟩⟩
    exact (hG.selectPage hf hsel).2 _ hp ⟨hphys, hvalid⟩
  · have he := congrArg Place.valid (Option.some.inj (hp.symm.trans hout))
    exact absurd (hvalid.symm.trans he) (by simp)

theorem selectPage_invalid (hsel : k.selectPage random = .ok (g, k1)) (hS : k.space s = some S)
    (hv : v < S.numPages) (hvalid : (S.pageTable v).valid = false) {S1 : AddrSpace}
    (hS1 : k1.space s = some S1) : (S1.pageTable v).valid = false := by
  obtain ⟨S2, hS2, hfixed⟩ := (selectPage_memoryOnly hsel).1.space_of hS
  cases hS1.symm.trans hS2
  have hn : S1.numPages = S.numPages := (congrArg AddrSpace.numPages hfixed :)
  have hp : k1.frames.place s v = some _ :=
    frames_place.mpr ⟨S1, hS1, AddrSpace.place_eq_some.mpr ⟨hn ▸ hv, rfl⟩⟩
  have hp0 : k.frames.place s v = some _ :=
    frames_place.mpr ⟨S, hS, AddrSpace.place_eq_some.mpr ⟨hv, rfl⟩⟩
  rcases selectPage_place hsel s v with hsame | hout
  · have he := Option.some.inj (hp.symm.trans (hsame.trans hp0))
    exact (congrArg Place.valid he).trans hvalid
  · exact congrArg Place.valid (Option.some.inj (hp.symm.trans hout))

/-! ## Events -/

/-- What an event leaves of the image of a space that stays: the running process's own
stores, and nothing else. -/
theorem act_holds (hk : k.Framed) (hu : k.frames.Unswapped) (ht : k.Tame) (hsp : k.Spares e)
    (hS : k.space s = some S) (hh : S.Holds k.mainMemory image) (h : k.act e = .ok (k', n))
    (hS' : k'.space s = some S') :
    S'.Holds k'.mainMemory
      (if k.spaceOf k.currentThread = some s then e.stores image else image) := by
  have hi := hk.inv
  have hf := hk.frames
  have hsame {k' : Kernel} (hspace : k'.space s = k.space s) (hm : k'.mainMemory = k.mainMemory)
      (hS' : k'.space s = some S') : S'.Holds k'.mainMemory image := by
    cases (hspace.trans hS).symm.trans hS'
    rw [hm]
    exact hh
  have hfound (k' : Kernel) (hS' : k'.space s = some S')
      (h : ∃ S1, k'.space s = some S1 ∧ S1.Holds k'.mainMemory image) :
      S'.Holds k'.mainMemory image := by
    obtain ⟨S1, hS1, hh1⟩ := h
    cases hS1.symm.trans hS'
    exact hh1
  -- the pages of a space have frames that nothing else holds
  have hother {g : Nat} {x : Holder} (hg : k.frames.Holds g x) (hx : ∀ v, x ≠ .page s v) (v f : Nat)
      (hv : v < S.numPages) (hvalid : (S.pageTable v).valid = true)
      (hphys : (S.pageTable v).physicalPage = f) : f ≠ g := by
    rintro rfl
    obtain ⟨f', hphys', -, hheld⟩ := place_of_valid hf hS hv hvalid
    have hff : f' = f := Int.ofNat.inj (hphys'.symm.trans hphys)
    exact hx v (hf.own.unique hg (hff ▸ hheld))
  have hended {r : Registers} {k' : Kernel} (h : { k with registers := r }.terminate = .ok k')
      (hS' : k'.space s = some S') : S'.Holds k'.mainMemory image := by
    obtain ⟨T, hT, -⟩ := hi.running
    obtain ⟨s', hs', -⟩ := hi.procs.space hT
    obtain ⟨_, m, st, -, -, hk'⟩ :=
      terminate_eq_ok (k := { k with registers := r }) (live_eq_some hT).2 hs' h
    have hspace : k'.space = Function.update k.space s' none := (congrArg Kernel.space hk' :)
    have hne : s ≠ s' := by
      rintro rfl
      rw [hspace, Function.update_self] at hS'
      cases hS'
    exact hsame (by rw [hspace, Function.update_of_ne hne]) (congrArg Kernel.mainMemory hk' :) hS'
  -- the events that store nothing
  have hkept (he : e.stores image = image) (h : S'.Holds k'.mainMemory image) :
      S'.Holds k'.mainMemory
        (if k.spaceOf k.currentThread = some s then e.stores image else image) := by
    rw [he, ite_self]
    exact h
  cases acts_of_act h with
  | @instr accesses registers k1 huser h1 =>
    obtain ⟨s0, S0, hsp0, hpt, hS0, hsize⟩ := (hi.atHome_of_atUser (.inl huser)).table
    by_cases hrun : k.spaceOf k.currentThread = some s
    · rw [if_pos hrun]
      cases hrun.symm.trans hsp0
      cases hS.symm.trans hS0
      obtain ⟨S1, ht1, -, hh1⟩ := accesses_holds hf (machineTable_eq_ok.mpr ⟨hpt, hS⟩) hsize hh h1
      cases (machineTable_eq_ok.mp ht1).2.symm.trans hS'
      exact hh1
    · rw [if_neg hrun]
      have hne : s ≠ s0 := fun he => hrun (he ▸ hsp0)
      cases ((accesses_other hpt hne h1).trans hS).symm.trans hS'
      refine hh.frames_congr fun v f hv hvalid hphys => ?_
      have hp := frames_place.mpr ⟨S, hS, AddrSpace.place_eq_some.mpr ⟨hv, rfl⟩⟩
      have hout := accesses_outside hf (hi.atHome_of_atUser (.inl huser)) hrun hp
        ⟨hphys, hvalid⟩ h1
      exact hout
  | @copy a _ hcall h1 =>
    obtain ⟨s0, S0, hsp0, hpt, hS0, hsize⟩ := (hi.atHome_of_atUser (.inr hcall)).table
    by_cases hrun : k.spaceOf k.currentThread = some s
    · rw [if_pos hrun]
      cases hrun.symm.trans hsp0
      cases hS.symm.trans hS0
      obtain ⟨S1, ht1, -, hh1⟩ := access_holds hf (machineTable_eq_ok.mpr ⟨hpt, hS⟩) hsize hh h1
      cases (machineTable_eq_ok.mp ht1).2.symm.trans hS'
      exact hh1
    · rw [if_neg hrun]
      have hne : s ≠ s0 := fun he => hrun (he ▸ hsp0)
      have hspace := (access_other (machineTable_eq_ok.mpr ⟨hpt, hS0⟩) hne h1).1
      cases (hspace.trans hS).symm.trans hS'
      refine hh.frames_congr fun v f hv hvalid hphys => ?_
      have hp := frames_place.mpr ⟨S, hS, AddrSpace.place_eq_some.mpr ⟨hv, rfl⟩⟩
      exact access_outside hf (hi.atHome_of_atUser (.inr hcall)) hrun hp ⟨hphys, hvalid⟩ h1
  | tick _ => exact hkept rfl (hsame rfl rfl hS')
  | @fault addr random k1 huser hflt h1 =>
    refine hkept rfl ?_
    obtain ⟨s0, g, k2, hsp0, hsel, hbranch⟩ := pageFault_cases h1
    have hspare : ∀ v, (k.raise addr).Resident s v g →
        frameBytes k.mainMemory g = S.pageImage v := fun v hr => hsp g k2 s v S hsel hS hr
    obtain ⟨S2, hS2, hh2⟩ := selectPage_holds (k := k.raise addr) hf hS hh hsel hspare
    rcases hbranch with ⟨-, rfl⟩ | ⟨-, hfill⟩
    · exact hfound k2 hS' ⟨S2, hS2, hh2⟩
    · obtain ⟨hm, hg⟩ := selectPage_memoryOnly hsel
      have hu2 : k2.frames.Unswapped := fun {s v p} hp => by
        rcases selectPage_place hsel s v with hsame | hout
        · exact hu (hsame ▸ hp)
        · cases hout.symm.trans hp
          rfl
      have ht2 : k2.Tame := Tame.memoryOnly (k := k.raise addr) ⟨ht.exe, ht.space⟩ hm
      have hvacant (v f : Nat) (hv : v < S2.numPages) (hvalid : (S2.pageTable v).valid = true)
          (hphys : (S2.pageTable v).physicalPage = f) : f ≠ g :=
        selectPage_vacant (k := k.raise addr) hf hsel hS2 hv hvalid hphys
      refine hfound _ hS'
        (fillPage_holds hu2 (fun S hS => ht2.space hS) hg hS2 hh2 hvacant ?_ hfill)
      rintro rfl
      obtain ⟨s1, S1, hs1, hS1, hpage, hlt, hinvalid⟩ :=
        hflt.page hk.sized (hi.atHome_of_atUser huser)
      cases hsp0.symm.trans hs1
      rw [hpage, Int.toNat_natCast]
      exact selectPage_invalid (k := k.raise addr) hsel hS1 hlt hinvalid hS2
  | lock h =>
    refine hkept rfl ?_
    obtain ⟨_, _, _, -, ⟨rfl, -⟩ | ⟨rfl, -⟩⟩ := lock_cases h
    · exact hsame rfl rfl hS'
    · exact hsame rfl rfl hS'
  | load h =>
    refine hkept rfl ?_
    obtain ⟨w, g, c, s0, k1, hhere, hsp0, hfill, rfl, -⟩ := load_cases h
    have hg : g < numPhysPages := hi.framed_here hhere
    obtain ⟨T, hT, -⟩ := hi.running
    have hhand : k.frames.hand k.currentThread = some (w, g) :=
      frames_hand.mpr ⟨⟨T, hT⟩, by rw [show k.cont k.currentThread = _ from hhere]; rfl⟩
    obtain ⟨st, r, l, hV⟩ := k1.lockV_eq g
    rw [hV] at hS' ⊢
    refine hfound k1 hS' (fillPage_holds hu (fun S hS => ht.space hS) hg hS hh
      (hother (x := .fault k.currentThread) ⟨w, hhand⟩ (by simp)) ?_ hfill)
    rintro rfl
    obtain ⟨s1, p, hhome, hw, hp, hout⟩ := hf.hands hhand
    obtain ⟨T', hT', hs1⟩ := frames_home.mp hhome
    cases hsp0.symm.trans ((spaceOf_of_live hT').trans hs1)
    obtain ⟨S1, hS1, hplace⟩ := frames_place.mp hp
    cases hS.symm.trans hS1
    exact (congrArg Place.valid (AddrSpace.place_eq_some.mp hplace).2).symm.trans hout.2
  | trap _ => exact hkept rfl (hsame rfl rfl hS')
  | @ret result _ =>
    refine hkept rfl ?_
    cases result with
    | none => exact hsame rfl rfl hS'
    | some r => exact hsame rfl rfl hS'
  | exec hc h =>
    refine hkept rfl ?_
    obtain ⟨hi', ha'⟩ := hi.back hc
    rcases exec_cases hi' ha' h with ⟨-, rfl, -⟩ | ⟨x, k1, -, hnew, -, rfl⟩
    · exact hsame rfl rfl hS'
    · obtain ⟨_, _, _, -, -, -, -, hk1⟩ := newAddrSpace_eq_ok hnew
      have hne : s ≠ k.nextSpace := by
        rintro rfl
        rw [hi.procs.freshSpace _ (Nat.le_refl _)] at hS
        cases hS
      have hspace : k1.space = Function.update k.space k.nextSpace _ :=
        (congrArg Kernel.space hk1 :)
      refine hsame ?_ (congrArg Kernel.mainMemory hk1 :) hS'
      change k1.space s = k.space s
      rw [hspace, Function.update_of_ne hne]
  | join hc h =>
    refine hkept rfl ?_
    obtain ⟨hi', ha'⟩ := hi.back hc
    rcases join_target hi' ha' h with ⟨-, rfl, -⟩ | ⟨c, -, -, rfl⟩
    · exact hsame rfl rfl hS'
    · exact hsame rfl rfl hS'
  | yield _ => exact hkept rfl (hsame rfl rfl hS')
  | exit _ h1 => exact hkept rfl (hended (r := k.registers) h1 hS')
  | fatal _ h1 => exact hkept rfl (hended h1 hS')
  | enable _ => exact hkept rfl (hsame rfl rfl hS')
  | create hc h1 =>
    refine hkept rfl ?_
    obtain ⟨_, _, -, -, hk1, -⟩ := create_eq_ok h1
    exact hsame (congrFun (congrArg Kernel.space hk1 :) s) (congrArg Kernel.mainMemory hk1 :) hS'

end Kernel
end Nachos

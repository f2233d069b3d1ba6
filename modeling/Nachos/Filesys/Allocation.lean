import Mathlib.Data.List.Pairwise
import Nachos.Filesys.FileSystem

/-! The free map on the disk marks exactly what is in use: the sectors of the
headers, and the data sectors every header lists, each of them once. The free
map and the directory are themselves files whose sectors are accounted for in
this way; they are the files with their headers in the sectors 0 and 1. -/

namespace Nachos
open Lib

namespace FileSystem

/-- The header on the disk in sector `s`. -/
def headerAt (d : Sectors) (s : Int) : FileHeader := .ofMem (d s.toNat).mem

/-- The directory on the disk. -/
def table (fs : FileSystem) : Directory := ⟨numDirEntries, fs.directoryFile.hdr.byte fs.sectors⟩

/-- The header sectors of the files in the directory. -/
def entries (fs : FileSystem) : List Int := Directory.entries fs.table.table numDirEntries

/-- The header sectors of all files, the free map and the directory included. -/
def files (fs : FileSystem) : List Int := freeMapSector :: directorySector :: fs.entries

/-- What a file occupies: its header sector and its data sectors. -/
def holdings (d : Sectors) (s : Int) : List Int := s :: (headerAt d s).listed

def owned (fs : FileSystem) : List Int := fs.files.flatMap (holdings fs.sectors)

/-- The bits of the free map on the disk. -/
def marked (fs : FileSystem) (i : Nat) : Bool :=
  BitMap.bitOf (fs.freeMapFile.hdr.byte fs.sectors) i

structure Inv (fs : FileSystem) : Prop where
  ledger : Ledger numSectors fs.marked fs.owned
  mapHdr : fs.freeMapFile.hdr = headerAt fs.sectors freeMapSector
  dirHdr : fs.directoryFile.hdr = headerAt fs.sectors directorySector
  mapLength : fs.freeMapFile.hdr.length = 128
  dirLength : fs.directoryFile.hdr.length = 200
  listed : ∀ s ∈ fs.files, (headerAt fs.sectors s).Listed

theorem headerAt_congr {d d' : Sectors} {s : Int} (h : d' s.toNat = d s.toNat) :
    headerAt d' s = headerAt d s := by
  unfold headerAt
  rw [h]

theorem holdings_congr {d d' : Sectors} {s : Int} (h : headerAt d' s = headerAt d s) :
    holdings d' s = holdings d s := by
  unfold holdings
  rw [h]

/-- The bytes of a file whose data sectors are as before. -/
theorem byte_congr {h : FileHeader} {d d' : Sectors} (hl : h.Listed)
    (hd : ∀ x ∈ h.listed, d' x.toNat = d x.toNat) {j : Nat} (hj : j < h.length) :
    h.byte d' j = h.byte d j := by
  have hb := h.div_lt_blocks hj
  unfold FileHeader.byte
  rw [hd _ (FileHeader.mem_listed.mpr ⟨_, by rw [hl.count]; exact hb, rfl⟩)]

/-- With one entry more there is one file more. -/
theorem files_perm_cons {fs fs' : FileSystem} {s : Int}
    (h : fs'.entries.Perm (s :: fs.entries)) : fs'.files.Perm (s :: fs.files) :=
  ((h.cons _).cons _).trans (((List.Perm.swap ..).cons _).trans (List.Perm.swap ..))

/-! ## How the files lie on the disk -/

namespace Inv
variable {fs : FileSystem} {f g : Int}

theorem freeMap_mem : freeMapSector ∈ fs.files := List.mem_cons_self ..

theorem directory_mem : directorySector ∈ fs.files := List.mem_cons_of_mem _ (List.mem_cons_self ..)

theorem entry_mem (hf : f ∈ fs.entries) : f ∈ fs.files :=
  List.mem_cons_of_mem _ (List.mem_cons_of_mem _ hf)

theorem mem_owned (hf : f ∈ fs.files) {x : Int} (hx : x ∈ holdings fs.sectors f) : x ∈ fs.owned :=
  List.mem_flatMap.mpr ⟨f, hf, hx⟩

theorem bound (hI : fs.Inv) (hf : f ∈ fs.files) : 0 ≤ f ∧ f < numSectors :=
  hI.ledger.bound f (mem_owned hf (List.mem_cons_self ..))

theorem listed_bound (hI : fs.Inv) (hf : f ∈ fs.files) {x : Int}
    (hx : x ∈ (headerAt fs.sectors f).listed) : 0 ≤ x ∧ x < numSectors :=
  hI.ledger.bound x (mem_owned hf (List.mem_cons_of_mem _ hx))

theorem holdings_nodup (hI : fs.Inv) (hf : f ∈ fs.files) : (holdings fs.sectors f).Nodup :=
  (List.nodup_flatMap.mp hI.ledger.nodup).1 f hf

theorem holdings_disjoint (hI : fs.Inv) (hf : f ∈ fs.files) (hg : g ∈ fs.files) (hne : f ≠ g) :
    List.Disjoint (holdings fs.sectors f) (holdings fs.sectors g) := by
  have : Std.Symm (Function.onFun List.Disjoint (holdings fs.sectors)) :=
    ⟨fun _ _ h _ hx hy => h hy hx⟩
  exact (List.nodup_flatMap.mp hI.ledger.nodup).2.forall hf hg hne

/-- No header lies in a data sector. -/
theorem not_listed (hI : fs.Inv) (hf : f ∈ fs.files) (hg : g ∈ fs.files) :
    f ∉ (headerAt fs.sectors g).listed := by
  intro hmem
  by_cases hne : f = g
  · subst hne
    exact (List.nodup_cons.mp (hI.holdings_nodup hf)).1 hmem
  · exact hI.holdings_disjoint hf hg hne (List.mem_cons_self ..) (List.mem_cons_of_mem _ hmem)

/-- No data sector belongs to two files. -/
theorem listed_disjoint (hI : fs.Inv) (hf : f ∈ fs.files) (hg : g ∈ fs.files) (hne : f ≠ g)
    {x : Int} (hx : x ∈ (headerAt fs.sectors f).listed) :
    x ∉ (headerAt fs.sectors g).listed := fun hx' =>
  hI.holdings_disjoint hf hg hne (List.mem_cons_of_mem _ hx) (List.mem_cons_of_mem _ hx')

theorem sound (hI : fs.Inv) (hf : f ∈ fs.files) : (headerAt fs.sectors f).Sound :=
  (hI.listed f hf).sound (List.nodup_cons.mp (hI.holdings_nodup hf)).2
    fun _ hx => hI.listed_bound hf hx

theorem outside (hI : fs.Inv) (hf : f ∈ fs.files) {x : Nat}
    (hx : (x : Int) ∉ (headerAt fs.sectors f).listed) : (headerAt fs.sectors f).Outside x :=
  (hI.listed f hf).outside (fun _ hx => hI.listed_bound hf hx) hx

end Inv

/-! ## The two open files -/

/-- The headers of the free map and the directory: files of the right lengths, in
sectors of their own. -/
structure Layout (fs : FileSystem) : Prop where
  mapLength : fs.freeMapFile.hdr.length = 128
  dirLength : fs.directoryFile.hdr.length = 200
  mapListed : fs.freeMapFile.hdr.Listed
  dirListed : fs.directoryFile.hdr.Listed
  nodup : (fs.freeMapFile.hdr.listed ++ fs.directoryFile.hdr.listed).Nodup
  bound : ∀ x ∈ fs.freeMapFile.hdr.listed ++ fs.directoryFile.hdr.listed, 0 ≤ x ∧ x < numSectors

theorem Inv.layout {fs : FileSystem} (hI : fs.Inv) : fs.Layout := by
  have hmap := hI.listed _ Inv.freeMap_mem
  have hdir := hI.listed _ Inv.directory_mem
  refine ⟨hI.mapLength, hI.dirLength, by rw [hI.mapHdr]; exact hmap,
    by rw [hI.dirHdr]; exact hdir, ?_, ?_⟩ <;> rw [hI.mapHdr, hI.dirHdr]
  · refine List.Nodup.append (List.nodup_cons.mp (hI.holdings_nodup Inv.freeMap_mem)).2
      (List.nodup_cons.mp (hI.holdings_nodup Inv.directory_mem)).2 fun x hx hx' => ?_
    exact hI.listed_disjoint Inv.freeMap_mem Inv.directory_mem (by decide) hx hx'
  · intro x hx
    rcases List.mem_append.mp hx with hx | hx
    · exact hI.listed_bound Inv.freeMap_mem hx
    · exact hI.listed_bound Inv.directory_mem hx

namespace Layout
variable {fs : FileSystem}

theorem map_bound (hL : fs.Layout) {x : Int} (hx : x ∈ fs.freeMapFile.hdr.listed) :
    0 ≤ x ∧ x < numSectors := hL.bound x (List.mem_append_left _ hx)

theorem dir_bound (hL : fs.Layout) {x : Int} (hx : x ∈ fs.directoryFile.hdr.listed) :
    0 ≤ x ∧ x < numSectors := hL.bound x (List.mem_append_right _ hx)

theorem map_sound (hL : fs.Layout) : fs.freeMapFile.hdr.Sound :=
  hL.mapListed.sound hL.nodup.of_append_left fun _ hx => hL.map_bound hx

theorem dir_sound (hL : fs.Layout) : fs.directoryFile.hdr.Sound :=
  hL.dirListed.sound hL.nodup.of_append_right fun _ hx => hL.dir_bound hx

end Layout

/-! ## What is fetched -/

namespace Inv
variable {fs : FileSystem}

theorem directory_eq (hI : fs.Inv) (fresh : Fresh) :
    ∃ dir, fs.directory fresh = .ok dir ∧ Directory.Agrees fs.table dir :=
  let new := Directory.new numDirEntries fresh.table
  have hlen : fs.directoryFile.hdr.length = new.tableSize * entrySize := hI.dirLength
  Directory.fetchFrom_front hI.layout.dir_sound hlen.ge

theorem freeMap_eq (hI : fs.Inv) (fresh : Fresh) :
    ∃ m, fs.freeMap fresh = .ok m ∧ m.numBits = numSectors ∧
      ∀ i, i < numSectors → m.bit i = fs.marked i := by
  have hbits : (BitMap.new numSectors fresh.map).numBits = numSectors := BitMap.numBits_new ..
  have hlen : fs.freeMapFile.hdr.length = (BitMap.new numSectors fresh.map).numWords * 4 := by
    unfold BitMap.numWords
    rw [hbits, hI.mapLength]
    rfl
  obtain ⟨m, hm, hnum, hbit⟩ := BitMap.fetchFrom_front (d := fs.sectors) hI.layout.map_sound hlen.ge
  rw [hbits] at hnum hbit
  exact ⟨m, hm, hnum, hbit⟩

end Inv

/-! ## What is written back -/

/-- The sectors `d'` after the copies `dir` and `m` of the directory and the free
map have been written to the sectors `d`. -/
structure Flushed (fs : FileSystem) (d : Sectors) (dir : Directory) (m : BitMap) (d' : Sectors) :
    Prop where
  table : Directory.Agrees dir ⟨dir.tableSize, fs.directoryFile.hdr.byte d'⟩
  bits : ∀ i, i < numSectors → BitMap.bitOf (fs.freeMapFile.hdr.byte d') i = m.bit i
  frame : ∀ x : Nat, (x : Int) ∉ fs.freeMapFile.hdr.listed →
    (x : Int) ∉ fs.directoryFile.hdr.listed → d' x = d x

namespace Layout
variable {fs : FileSystem} {d : Sectors} {dir : Directory} {m : BitMap}

theorem map_outside (hL : fs.Layout) {x : Nat} (hx : (x : Int) ∉ fs.freeMapFile.hdr.listed) :
    fs.freeMapFile.hdr.Outside x := hL.mapListed.outside (fun _ hx => hL.map_bound hx) hx

theorem dir_outside (hL : fs.Layout) {x : Nat} (hx : (x : Int) ∉ fs.directoryFile.hdr.listed) :
    fs.directoryFile.hdr.Outside x := hL.dirListed.outside (fun _ hx => hL.dir_bound hx) hx

theorem write_map (hL : fs.Layout) (hm : m.numBits = numSectors) (buf : Nat → UInt8) :
    ∃ d', m.writeBack d fs.freeMapFile buf = .ok d' ∧
      (∀ i, i < numSectors → BitMap.bitOf (fs.freeMapFile.hdr.byte d') i = m.bit i) ∧
      ∀ x, fs.freeMapFile.hdr.Outside x → d' x = d x := by
  have hwords : m.numWords = 32 := by
    unfold BitMap.numWords
    rw [hm]
    rfl
  rw [← hm]
  exact BitMap.writeBack_front hL.map_sound buf (by rw [hwords, hL.mapLength])

theorem write_dir (hL : fs.Layout) (hdir : dir.tableSize = numDirEntries) (buf : Nat → UInt8) :
    ∃ d', dir.writeBack d fs.directoryFile buf = .ok d' ∧
      Directory.Agrees dir ⟨dir.tableSize, fs.directoryFile.hdr.byte d'⟩ ∧
      ∀ x, fs.directoryFile.hdr.Outside x → d' x = d x :=
  Directory.writeBack_front hL.dir_sound buf (by rw [hdir, hL.dirLength]; decide)

theorem dir_byte_congr (hL : fs.Layout) {d' : Sectors}
    (h : ∀ x, fs.freeMapFile.hdr.Outside x → d' x = d x) {j : Nat} (hj : j < 200) :
    fs.directoryFile.hdr.byte d' j = fs.directoryFile.hdr.byte d j := by
  refine byte_congr hL.dirListed (fun x hx => h _ (hL.map_outside ?_))
    (by rw [hL.dirLength]; exact hj)
  rw [Int.toNat_of_nonneg (hL.dir_bound hx).1]
  exact fun hx' => List.disjoint_of_nodup_append hL.nodup hx' hx

theorem map_byte_congr (hL : fs.Layout) {d' : Sectors}
    (h : ∀ x, fs.directoryFile.hdr.Outside x → d' x = d x) {j : Nat} (hj : j < 128) :
    fs.freeMapFile.hdr.byte d' j = fs.freeMapFile.hdr.byte d j := by
  refine byte_congr hL.mapListed (fun x hx => h _ (hL.dir_outside ?_))
    (by rw [hL.mapLength]; exact hj)
  rw [Int.toNat_of_nonneg (hL.map_bound hx).1]
  exact fun hx' => List.disjoint_of_nodup_append hL.nodup hx hx'

/-- The order of `Create`: the directory first. -/
theorem flush_dir_map (hL : fs.Layout) (d : Sectors) (hdir : dir.tableSize = numDirEntries)
    (hm : m.numBits = numSectors) (buf buf' : Nat → UInt8) :
    ∃ d₁ d₂, dir.writeBack d fs.directoryFile buf = .ok d₁ ∧
      m.writeBack d₁ fs.freeMapFile buf' = .ok d₂ ∧ Flushed fs d dir m d₂ := by
  obtain ⟨d₁, h₁, htable, hout₁⟩ := hL.write_dir (d := d) hdir buf
  obtain ⟨d₂, h₂, hbits, hout₂⟩ := hL.write_map (d := d₁) hm buf'
  refine ⟨d₁, d₂, h₁, h₂, ⟨rfl, fun j hj => ?_⟩, hbits, fun x hx hx' => ?_⟩
  · rw [← htable.table j hj]
    rw [hdir] at hj
    exact hL.dir_byte_congr hout₂ hj
  · rw [hout₂ x (hL.map_outside hx), hout₁ x (hL.dir_outside hx')]

/-- The order of `Remove`: the free map first. -/
theorem flush_map_dir (hL : fs.Layout) (d : Sectors) (hdir : dir.tableSize = numDirEntries)
    (hm : m.numBits = numSectors) (buf buf' : Nat → UInt8) :
    ∃ d₁ d₂, m.writeBack d fs.freeMapFile buf = .ok d₁ ∧
      dir.writeBack d₁ fs.directoryFile buf' = .ok d₂ ∧ Flushed fs d dir m d₂ := by
  obtain ⟨d₁, h₁, hbits, hout₁⟩ := hL.write_map (d := d) hm buf
  obtain ⟨d₂, h₂, htable, hout₂⟩ := hL.write_dir (d := d₁) hdir buf'
  refine ⟨d₁, d₂, h₁, h₂, htable, fun i hi => ?_, fun x hx hx' => ?_⟩
  · rw [← hbits i hi]
    exact BitMap.bitOf_congr (n := 32) hi fun j hj => hL.map_byte_congr hout₂ hj
  · rw [hout₂ x (hL.dir_outside hx'), hout₁ x (hL.map_outside hx)]

end Layout

namespace Inv
variable {fs : FileSystem} {d : Sectors} {dir : Directory} {m : BitMap}

/-- The file system after the copies have been written back, if no header has
been written over before. -/
theorem flushed (hI : fs.Inv) {d' : Sectors} (hdir : dir.tableSize = numDirEntries)
    (hF : Flushed fs d dir m d') (hold : ∀ f ∈ fs.files, d f.toNat = fs.sectors f.toNat) :
    (∀ f ∈ fs.files, headerAt d' f = headerAt fs.sectors f) ∧
      Directory.Agrees dir (table { fs with sectors := d' }) ∧
      ∀ i, i < numSectors → marked { fs with sectors := d' } i = m.bit i := by
  refine ⟨fun f hf => headerAt_congr ?_, ⟨hdir.symm, hF.table.table⟩, hF.bits⟩
  have hnat : ((f.toNat : Nat) : Int) = f := Int.toNat_of_nonneg (hI.bound hf).1
  rw [hF.frame, hold f hf]
  · rw [hnat, hI.mapHdr]
    exact hI.not_listed hf freeMap_mem
  · rw [hnat, hI.dirHdr]
    exact hI.not_listed hf directory_mem

/-- The invariant of a file system with the two open files of `fs`, after the
headers of `fs` have been kept. -/
theorem of_ledger (hI : fs.Inv) {d' : Sectors}
    (hkept : ∀ f ∈ fs.files, headerAt d' f = headerAt fs.sectors f)
    (hledger : Ledger numSectors (marked { fs with sectors := d' })
      (owned { fs with sectors := d' }))
    (hlisted : ∀ f ∈ files { fs with sectors := d' }, (headerAt d' f).Listed) :
    Inv { fs with sectors := d' } where
  ledger := hledger
  mapHdr := hI.mapHdr.trans (hkept _ freeMap_mem).symm
  dirHdr := hI.dirHdr.trans (hkept _ directory_mem).symm
  mapLength := hI.mapLength
  dirLength := hI.dirLength
  listed := hlisted

/-- A file in sectors that were clear has been added. -/
theorem add_file (hI : fs.Inv) {d' : Sectors} {s : Nat} {ss : List Nat}
    (hfiles : (files { fs with sectors := d' }).Perm ((s : Int) :: fs.files))
    (hkept : ∀ f ∈ fs.files, headerAt d' f = headerAt fs.sectors f)
    (hself : (headerAt d' s).listed = ss.map Int.ofNat) (hlist : (headerAt d' s).Listed)
    (hnodup : (s :: ss).Nodup) (hclear : ∀ x ∈ s :: ss, x < numSectors ∧ fs.marked x = false)
    (hmark : ∀ i, i < numSectors →
      marked { fs with sectors := d' } i = (fs.marked i || decide (i ∈ s :: ss))) :
    Inv { fs with sectors := d' } := by
  have hgrow : Ledger numSectors (marked { fs with sectors := d' })
      ((s :: ss).map Int.ofNat ++ fs.owned) := by
    refine hI.ledger.grow (hnodup.map fun _ _ h => Int.ofNat.inj h) (fun x hx => ?_)
      fun i hi => ?_
    · obtain ⟨i, hi, rfl⟩ := List.mem_map.mp hx
      exact ⟨i, rfl, hclear i hi⟩
    · rw [hmark i hi, Bool.or_eq_true, decide_eq_true_eq, List.mem_map]
      refine or_congr Iff.rfl ⟨fun h => ⟨i, h, rfl⟩, ?_⟩
      intro ⟨j, hj, hji⟩
      exact Int.ofNat.inj hji ▸ hj
  have howned : (owned { fs with sectors := d' }).Perm ((s :: ss).map Int.ofNat ++ fs.owned) := by
    refine (hfiles.flatMap_right _).trans (List.Perm.of_eq ?_)
    rw [List.flatMap_cons, holdings, hself]
    congr 1
    exact List.flatMap_congr fun f hf => holdings_congr (hkept f hf)
  refine hI.of_ledger hkept (hgrow.perm howned.symm) fun f hf => ?_
  rcases List.mem_cons.mp (hfiles.mem_iff.mp hf) with rfl | hf
  · exact hlist
  · rw [hkept f hf]
    exact hI.listed f hf

/-- A file has been taken away and its sectors cleared. -/
theorem remove_file (hI : fs.Inv) {d' : Sectors} {s : Int}
    (hfiles : fs.files.Perm (s :: files { fs with sectors := d' }))
    (hkept : ∀ f ∈ fs.files, headerAt d' f = headerAt fs.sectors f)
    (hmark : ∀ i, i < numSectors → (marked { fs with sectors := d' } i = true ↔
      fs.marked i = true ∧ (i : Int) ∉ holdings fs.sectors s)) :
    Inv { fs with sectors := d' } := by
  have hin : ∀ f ∈ files { fs with sectors := d' }, f ∈ fs.files := fun f hf =>
    hfiles.mem_iff.mpr (List.mem_cons_of_mem _ hf)
  have howned : fs.owned.Perm (holdings fs.sectors s ++ owned { fs with sectors := d' }) := by
    refine (hfiles.flatMap_right _).trans (List.Perm.of_eq ?_)
    rw [List.flatMap_cons]
    congr 1
    exact List.flatMap_congr fun f hf => (holdings_congr (hkept f (hin f hf))).symm
  refine hI.of_ledger hkept ((hI.ledger.perm howned).shrink hmark) fun f hf => ?_
  rw [hkept f (hin f hf)]
  exact hI.listed f (hin f hf)

end Inv

/-! ## Create -/

/-- The free sectors. -/
def numClear (fs : FileSystem) : Nat :=
  ((List.range numSectors).filter fun i => !fs.marked i).length

/-- There is room for a new file of the given name and size. -/
structure Room (fs : FileSystem) (name : Nat → UInt8) (size : BitVec 32) : Prop where
  absent : fs.table.findIndex name = none
  entry : fs.entries.length < numDirEntries
  sectors : (divRoundUp size.toInt sectorSize).toNat < fs.numClear

/-- An empty disk has room for every file of up to 1019 sectors. -/
theorem room_empty {fs : FileSystem} {name : Nat → UInt8} {size : BitVec 32}
    (hempty : fs.entries = []) (hm : ∀ i, i < numSectors → fs.marked i = decide (i < 4))
    (hsize : (divRoundUp size.toInt sectorSize).toNat < 1020) : fs.Room name size := by
  have hclear : fs.numClear = 1020 := by
    unfold numClear
    rw [List.filter_congr fun i hi => by rw [hm i (List.mem_range.mp hi)]]
    decide +kernel
  refine ⟨Directory.findIndex_of_entries_nil hempty, ?_, by rw [hclear]; exact hsize⟩
  rw [hempty]
  decide

/-- What a successful `Create` does: a file with its header in `s` and the data
sectors `ss` has been added. `s` was the lowest clear sector, and none is left
clear below those of `ss`. -/
structure Created (fs fs' : FileSystem) (name : Nat → UInt8) (size : BitVec 32) (s : Nat)
    (ss : List Nat) : Prop where
  inv : fs'.Inv
  entries : fs'.entries.Perm ((s : Int) :: fs.entries)
  kept : ∀ f ∈ fs.files, headerAt fs'.sectors f = headerAt fs.sectors f
  listed : (headerAt fs'.sectors s).listed = ss.map Int.ofNat
  size : (headerAt fs'.sectors s).numBytes = size
  nodup : (s :: ss).Nodup
  clear : ∀ x ∈ s :: ss, x < numSectors ∧ fs.marked x = false
  marked : ∀ i, i < numSectors → fs'.marked i = (fs.marked i || decide (i ∈ s :: ss))
  lowest : ∀ j, j < s → fs.marked j = true
  firstFit : ∀ x ∈ ss, ∀ j, j < x → fs'.marked j = true
  found : fs'.table.find name = s

theorem headerAt_update (d : Sectors) (h : FileHeader) {s : Int} :
    headerAt (Function.update d s.toNat (.ofMem h.mem 0)) s = h := by
  unfold headerAt
  rw [Function.update_self, FileHeader.ofMem_mem]

theorem writeBack_eq (h : FileHeader) (d : Sectors) {s : Nat} (hs : s < numSectors) :
    h.writeBack d s = .ok (Function.update d s (.ofMem h.mem 0)) := by
  unfold FileHeader.writeBack Sectors.writeSector
  rw [if_pos (by omega), Int.toNat_natCast]

section Create
variable {fs : FileSystem} {name : Nat → UInt8} {size : BitVec 32}

theorem isInt_sector {s : Nat} (hs : s < numSectors) : IsInt (s : Int) := by
  unfold IsInt
  simp only [numSectors] at hs
  omega

/-- The sectors that `Create` marks: the one of the header and those of the file. -/
theorem marks_cons {m m' : BitMap} {s : Nat} {ss : List Nat}
    (hm : ∀ i, i < numSectors → m.bit i = fs.marked i) (hs : s < numSectors)
    (hclear : m.bit s = false) (hnodup : ss.Nodup)
    (hfresh : ∀ x ∈ ss, x < numSectors ∧ (m.setBit s).bit x = false)
    (hbit : ∀ i, m'.bit i = ((m.setBit s).bit i || decide (i ∈ ss))) :
    (s :: ss).Nodup ∧ (∀ x ∈ s :: ss, x < numSectors ∧ fs.marked x = false) ∧
      ∀ i, i < numSectors → m'.bit i = (fs.marked i || decide (i ∈ s :: ss)) := by
  refine ⟨List.nodup_cons.mpr ⟨fun hmem => ?_, hnodup⟩, fun x hx => ?_, fun i hi => ?_⟩
  · have := (hfresh s hmem).2
    rw [BitMap.bit_setBit] at this
    simp at this
  · rcases List.mem_cons.mp hx with rfl | hx
    · exact ⟨hs, (hm x hs).symm.trans hclear⟩
    · obtain ⟨hlt, hb⟩ := hfresh x hx
      rw [BitMap.bit_setBit, Bool.or_eq_false_iff, hm x hlt] at hb
      exact ⟨hlt, hb.1⟩
  · rw [hbit, BitMap.bit_setBit, hm i hi, Bool.or_assoc]
    congr 1
    rw [Bool.eq_iff_iff]
    simp

/-- The last part of `Create`, once the sectors have been found. -/
theorem create_flush (hI : fs.Inv) (fresh : Fresh) {dir dir' : Directory} {m m' : BitMap} {s : Nat}
    {hdr : FileHeader} (hdir : Directory.Agrees fs.table dir) (hbits : m.numBits = numSectors)
    (hm : ∀ i, i < numSectors → m.bit i = fs.marked i) (hs : s < numSectors)
    (hclear : m.bit s = false) (hleast : ∀ j, j < s → m.bit j = true)
    (hadd : dir.add name s = (true, dir'))
    (halloc : fresh.hdr.allocate (m.setBit s) size = .ok (true, hdr, m')) :
    ∃ d₁ d₂ d₃ ss, hdr.writeBack fs.sectors s = .ok d₁ ∧
      dir'.writeBack d₁ fs.directoryFile fresh.dirBuf = .ok d₂ ∧
      m'.writeBack d₂ fs.freeMapFile fresh.mapBuf = .ok d₃ ∧
      Created fs { fs with sectors := d₃ } name size s ss ∧
      ∀ x : Nat, x ≠ s → (x : Int) ∉ fs.freeMapFile.hdr.listed →
        (x : Int) ∉ fs.directoryFile.hdr.listed → d₃ x = fs.sectors x := by
  have hint := isInt_sector hs
  have hmint : IsInt ((m.setBit s).numBits : Int) := by
    rw [BitMap.numBits_setBit, hbits]
    decide
  obtain ⟨ss, hss, hlist, hsize, hnodup, hfresh, ⟨hnum, hbit⟩, hfirst⟩ :=
    FileHeader.allocate_eq hmint halloc
  rw [BitMap.numBits_setBit, hbits] at hnum hfresh
  obtain ⟨htab, hent⟩ := Directory.entries_add hint hadd
  rw [hdir.size] at htab hent
  have hun : fs.marked s = false := by rw [← hm s hs]; exact hclear
  have hnew : (s : Int) ∉ fs.owned := (hI.ledger.unmarked_iff hs).mp hun
  have hold : ∀ f ∈ fs.files,
      Function.update fs.sectors s (.ofMem hdr.mem 0) f.toNat = fs.sectors f.toNat := by
    intro f hf
    refine Function.update_of_ne (fun heq => hnew ?_) _ _
    rw [← heq, Int.toNat_of_nonneg (hI.bound hf).1]
    exact Inv.mem_owned hf (List.mem_cons_self ..)
  obtain ⟨d₂, d₃, hd₂, hd₃, hF⟩ := hI.layout.flush_dir_map
    (Function.update fs.sectors s (.ofMem hdr.mem 0)) htab hnum fresh.dirBuf fresh.mapBuf
  obtain ⟨hkept, hagree, hmarked⟩ := hI.flushed htab hF hold
  have hself : headerAt d₃ s = hdr := by
    have hframe : d₃ s = Function.update fs.sectors s (.ofMem hdr.mem 0) s := by
      refine hF.frame s (fun hmem => hnew ?_) (fun hmem => hnew ?_)
      · rw [hI.mapHdr] at hmem
        exact Inv.mem_owned Inv.freeMap_mem (List.mem_cons_of_mem _ hmem)
      · rw [hI.dirHdr] at hmem
        exact Inv.mem_owned Inv.directory_mem (List.mem_cons_of_mem _ hmem)
    exact (headerAt_congr hframe).trans (headerAt_update fs.sectors hdr)
  have hentries :
      (FileSystem.entries { fs with sectors := d₃ }).Perm ((s : Int) :: fs.entries) := by
    have h₁ := hagree.entries
    rw [htab] at h₁
    exact (List.Perm.of_eq h₁).trans (hent.trans ((List.Perm.of_eq hdir.entries).cons _))
  have hfiles : (files { fs with sectors := d₃ }).Perm ((s : Int) :: fs.files) :=
    files_perm_cons hentries
  obtain ⟨hnodup', hclear', hbit'⟩ := marks_cons hm hs hclear hnodup hfresh hbit
  have hmark := fun i hi => (hmarked i hi).trans (hbit' i hi)
  have hinv := hI.add_file hfiles hkept (by rw [hself, hss]) (by rw [hself]; exact hlist)
    hnodup' hclear' hmark
  refine ⟨_, d₂, d₃, ss, writeBack_eq hdr fs.sectors hs, hd₂, hd₃, ⟨hinv, hentries, hkept,
    by rw [hself, hss], by rw [hself, hsize], hnodup', hclear', hmark, ?_, ?_, ?_⟩, ?_⟩
  · intro j hj
    rw [← hm j (by omega)]
    exact hleast j hj
  · intro x hx j hj
    have hxlt := (hfresh x hx).1
    rw [hmarked j (by omega)]
    exact hfirst x hx j hj
  · have hfound := Directory.find_add hint hadd
    rw [← hfound]
    exact hagree.find name
  · intro x hx hmap hdir'
    rw [hF.frame x hmap hdir', Function.update_of_ne hx]

/-- The three ways `Create` goes: it fails for want of room and changes nothing,
it adds the file and writes no sectors but those of the new header and of the two
open files, or the file is larger than a header has room for. -/
theorem create_cases (hI : fs.Inv) (name : Nat → UInt8) (size : BitVec 32) (fresh : Fresh) :
    (fs.create name size fresh = .ok (false, fs) ∧ ¬ fs.Room name size) ∨
      (fs.Room name size ∧ ∃ fs' s ss, fs.create name size fresh = .ok (true, fs') ∧
        Created fs fs' name size s ss ∧
        ∀ x : Nat, x ≠ s → (x : Int) ∉ fs.freeMapFile.hdr.listed →
          (x : Int) ∉ fs.directoryFile.hdr.listed → fs'.sectors x = fs.sectors x) ∨
      (fs.Room name size ∧ (maxFileSize : Int) < size.toInt ∧
        fs.create name size fresh = .error .undefined) := by
  obtain ⟨dir, hdir, hagree⟩ := hI.directory_eq fresh
  obtain ⟨m, hm, hbits, hbit⟩ := hI.freeMap_eq fresh
  have hnum : m.numClear = fs.numClear := by
    unfold BitMap.numClear numClear
    rw [hbits]
    exact congrArg _ (List.filter_congr fun i hi => by rw [hbit i (List.mem_range.mp hi)])
  rw [create, hdir, ok_bind]
  by_cases hfind : dir.find name ≠ -1
  · refine Or.inl ⟨if_pos hfind, fun hroom => hfind ?_⟩
    rw [hagree.find, Directory.find, hroom.absent]
  rw [if_neg hfind, hm, ok_bind]
  by_cases hfull : m.numClear = 0
  · rw [BitMap.find_of_full hfull]
    refine Or.inl ⟨if_pos rfl, fun hroom => ?_⟩
    have := hroom.sectors
    omega
  obtain ⟨s, hs, hclear, hleast, hsearch⟩ := BitMap.find_of_clear (Nat.pos_of_ne_zero hfull)
  rw [hbits] at hs
  simp only [hsearch]
  rw [if_neg (by omega)]
  cases hadd : dir.add name s with
  | mk added dir' =>
    cases added with
    | false =>
      refine Or.inl ⟨rfl, fun hroom => ?_⟩
      have hnew : dir.findIndex name = none := by rw [hagree.findIndex]; exact hroom.absent
      have hlen : (Directory.entries dir.table dir.tableSize).length < dir.tableSize := by
        rw [hagree.size, hagree.entries]
        exact hroom.entry
      obtain ⟨dir'', hadd'⟩ := Directory.add_of_room s hnew hlen
      rw [hadd] at hadd'
      cases hadd'
    | true =>
      have hcount := BitMap.numClear_setBit (by rw [hbits]; exact hs) hclear
      have hroom : (¬ ∃ r, fresh.hdr.allocate (m.setBit s) size = .ok (false, r)) →
          fs.Room name size := by
        intro hdone
        rw [FileHeader.allocate_false_iff] at hdone
        obtain ⟨-, -, hnone, -⟩ := Directory.add_inv hadd
        refine ⟨by rw [← hagree.findIndex]; exact hnone, ?_, by omega⟩
        obtain ⟨htab, hent⟩ := Directory.entries_add (isInt_sector hs) hadd
        have hle := Directory.entries_length_le dir'.table dir.tableSize
        rw [hent.length_eq, List.length_cons, hagree.size, hagree.entries] at hle
        exact hle
      cases halloc : fresh.hdr.allocate (m.setBit s) size with
      | error e =>
        have hnot : ¬ ∃ r, fresh.hdr.allocate (m.setBit s) size = .ok (false, r) := by
          intro ⟨r, hr⟩
          rw [halloc] at hr
          cases hr
        have hbig : (maxFileSize : Int) < size.toInt := Int.lt_of_not_ge fun hle => by
          obtain ⟨r, hr⟩ := FileHeader.allocate_returns (h := fresh.hdr) (m := m.setBit s)
            (by rw [BitMap.numBits_setBit, hbits]; decide) hle
          rw [halloc] at hr
          cases hr
        have hover := FileHeader.allocate_overflow (h := fresh.hdr)
          (fun hless => hnot (FileHeader.allocate_false_iff.mpr hless)) hbig
        rw [halloc] at hover
        cases hover
        exact Or.inr (Or.inr ⟨hroom hnot, hbig, rfl⟩)
      | ok r =>
        obtain ⟨done, hdr, m'⟩ := r
        cases done with
        | false =>
          refine Or.inl ⟨rfl, fun hroom => ?_⟩
          have hless := FileHeader.allocate_false_iff.mp ⟨_, halloc⟩
          have hroom' := hroom.sectors
          omega
        | true =>
          obtain ⟨d₁, d₂, d₃, ss, hd₁, hd₂, hd₃, hC, hframe⟩ :=
            create_flush hI fresh hagree hbits hbit hs hclear hleast hadd halloc
          refine Or.inr (Or.inl ⟨hroom fun ⟨r, hr⟩ => ?_, _, s, ss, ?_, hC, hframe⟩)
          · rw [halloc] at hr
            cases hr
          · simp only [ok_bind, hd₁, hd₂, hd₃]

end Create

/-! ## Open and Remove -/

section Remove
variable {fs : FileSystem}

theorem fetchFrom_eq (d : Sectors) {s : Int} (hs : 0 ≤ s ∧ s < numSectors) :
    FileHeader.fetchFrom d s = .ok (headerAt d s) := by
  unfold FileHeader.fetchFrom Sectors.readSector
  rw [if_pos hs, ok_bind]
  rfl

theorem find_mem_entries {name : Nat → UInt8} {i : Nat} (h : fs.table.findIndex name = some i) :
    fs.table.find name ∈ fs.entries := Directory.find_mem h

theorem openFile_cases (hI : fs.Inv) (name : Nat → UInt8) (fresh : Fresh) :
    fs.openFile name fresh = .ok none ∨
      fs.table.find name ∈ fs.entries ∧ fs.openFile name fresh =
        .ok (some ⟨headerAt fs.sectors (fs.table.find name), 0⟩) := by
  obtain ⟨dir, hdir, hagree⟩ := hI.directory_eq fresh
  rw [openFile, hdir, ok_bind, hagree.find]
  cases hindex : fs.table.findIndex name with
  | none =>
    left
    rw [Directory.find, hindex]
    rfl
  | some i =>
    have hmem := find_mem_entries hindex
    have hb := hI.bound (Inv.entry_mem hmem)
    right
    rw [if_pos hb.1, OpenFile.new, fetchFrom_eq _ hb, ok_bind, ok_bind]
    exact ⟨hmem, rfl⟩

/-- What a successful `Remove` does: the file with its header in `s` is out of the
directory, and its sectors are clear. -/
structure Removed (fs fs' : FileSystem) (s : Int) : Prop where
  inv : fs'.Inv
  entries : fs.entries.Perm (s :: fs'.entries)
  kept : ∀ f ∈ fs.files, headerAt fs'.sectors f = headerAt fs.sectors f
  marked : ∀ i, i < numSectors →
    (fs'.marked i = true ↔ fs.marked i = true ∧ (i : Int) ∉ holdings fs.sectors s)

/-- `Remove` always returns: in particular the assertion of `Deallocate` holds. -/
theorem remove_cases (hI : fs.Inv) (name : Nat → UInt8) (fresh : Fresh) :
    (fs.remove name fresh = .ok (false, fs) ∧ fs.table.findIndex name = none) ∨
      ∃ fs', fs.remove name fresh = .ok (true, fs') ∧ Removed fs fs' (fs.table.find name) := by
  obtain ⟨dir, hdir, hagree⟩ := hI.directory_eq fresh
  obtain ⟨m, hm, hbits, hbit⟩ := hI.freeMap_eq fresh
  rw [remove, hdir, ok_bind]
  simp only [hagree.find]
  cases hindex : fs.table.findIndex name with
  | none =>
    left
    rw [Directory.find, hindex]
    exact ⟨rfl, rfl⟩
  | some i =>
    right
    have hmem := find_mem_entries hindex
    have hfile := Inv.entry_mem hmem
    have hb := hI.bound hfile
    obtain ⟨-, dir', hremove, htab, hent⟩ :=
      Directory.remove_eq (show dir.findIndex name = some i by rw [hagree.findIndex, hindex])
    rw [hagree.find] at hent
    rw [hagree.size] at htab hent
    generalize fs.table.find name = s at *
    obtain ⟨m₁, hm₁, hnum₁, hbit₁⟩ := FileHeader.deallocate_eq (m := m) (hI.listed s hfile)
      (List.nodup_cons.mp (hI.holdings_nodup hfile)).2 (fun x hx => by
        have hxb := hI.listed_bound hfile hx
        have hnat : ((x.toNat : Nat) : Int) = x := Int.toNat_of_nonneg hxb.1
        refine ⟨x.toNat, hnat.symm, by omega, ?_⟩
        rw [hbit _ (by omega), hI.ledger.marked_iff _ (by omega), hnat]
        exact Inv.mem_owned hfile (List.mem_cons_of_mem _ hx))
    have hnum : (m₁.clearBit s.toNat).numBits = numSectors := hnum₁.trans hbits
    obtain ⟨d₁, d₂, hd₁, hd₂, hF⟩ :=
      hI.layout.flush_map_dir fs.sectors htab hnum fresh.mapBuf fresh.dirBuf
    obtain ⟨hkept, hagree', hmarked⟩ := hI.flushed htab hF fun _ _ => rfl
    have hentries : fs.entries.Perm (s :: FileSystem.entries { fs with sectors := d₂ }) := by
      have h₁ := hagree'.entries
      rw [htab] at h₁
      exact (List.Perm.of_eq hagree.entries.symm).trans
        (hent.trans ((List.Perm.of_eq h₁.symm).cons _))
    have hfiles : fs.files.Perm (s :: files { fs with sectors := d₂ }) :=
      files_perm_cons hentries
    have hmark : ∀ j, j < numSectors → (FileSystem.marked { fs with sectors := d₂ } j = true ↔
        fs.marked j = true ∧ (j : Int) ∉ holdings fs.sectors s) := by
      intro j hj
      rw [hmarked j hj, BitMap.bit_clearBit, Bool.and_eq_true, hbit₁, hbit j hj, bne_iff_ne,
        holdings, List.mem_cons, not_or]
      constructor
      · intro ⟨⟨hmk, hnot⟩, hne⟩
        exact ⟨hmk, by omega, hnot⟩
      · intro ⟨hmk, hne, hnot⟩
        exact ⟨⟨hmk, hnot⟩, by omega⟩
    have hclear : m₁.clear s = .ok (m₁.clearBit s.toNat) := by
      rw [BitMap.clear, if_pos (by rw [hnum₁, hbits]; exact hb)]
    refine ⟨_, ?_, hI.remove_file hfiles hkept hmark, hentries, hkept, hmark⟩
    rw [if_neg (by omega), fetchFrom_eq _ hb, ok_bind, hm, ok_bind, hm₁, ok_bind, hclear, ok_bind,
      hd₁, ok_bind, hremove, hd₂, ok_bind]

end Remove

/-! ## Formatting -/

/-- `Allocate` of a file of one sector, when the sectors below `k` are marked. -/
theorem allocate_one (h : FileHeader) (size : BitVec 32) {m : BitMap} {k : Nat}
    (hsize : divRoundUp size.toInt sectorSize = 1) (hk : k < numSectors)
    (hbits : m.numBits = numSectors) (hm : ∀ i, i < numSectors → m.bit i = decide (i < k)) :
    ∃ hdr m', h.allocate m size = .ok (true, hdr, m') ∧ hdr.listed = [(k : Int)] ∧ hdr.Listed ∧
      hdr.numBytes = size ∧ m'.numBits = numSectors ∧
      ∀ i, i < numSectors → m'.bit i = decide (i < k + 1) := by
  have hint : IsInt (m.numBits : Int) := by rw [hbits]; decide
  have hclear : 0 < m.numClear :=
    BitMap.numClear_pos (by rw [hbits]; exact hk) (by rw [hm k hk]; simp)
  have hlen := FileHeader.toNat_divRoundUp size.toInt
  obtain ⟨⟨done, hdr, m'⟩, hok⟩ : ∃ r, h.allocate m size = .ok r :=
    FileHeader.allocate_returns hint
      (by rw [hsize] at hlen; simp only [sectorSize, maxFileSize] at *; omega)
  cases done with
  | false =>
    have := FileHeader.allocate_false_iff.mp ⟨_, hok⟩
    omega
  | true =>
    obtain ⟨ss, hss, hlist, hbytes, hnodup, hfresh, ⟨hnum, hbit⟩, hfirst⟩ :=
      FileHeader.allocate_eq hint hok
    have hone := hlist.length_listed
    rw [hss, List.length_map, hbytes, hsize] at hone
    obtain ⟨x, rfl⟩ := List.length_eq_one_iff.mp hone
    have hxk : x = k := by
      obtain ⟨hxlt, hxclear⟩ := hfresh x (List.mem_singleton_self x)
      rw [hbits] at hxlt
      rw [hm x hxlt, decide_eq_false_iff_not] at hxclear
      by_contra hne
      have hmk := hfirst x (List.mem_singleton_self x) k (by omega)
      rw [hbit, hm k hk] at hmk
      simp at hmk
      omega
    subst hxk
    refine ⟨hdr, m', hok, hss, hlist, hbytes, hnum.trans hbits, fun i hi => ?_⟩
    rw [hbit, hm i hi, ← Bool.decide_or, decide_eq_decide, List.mem_singleton]
    omega

/-- The bitmap `format` starts from, with the two header sectors marked. -/
theorem mark_headers {m : BitMap} (hbits : m.numBits = numSectors)
    (hm : ∀ i, i < numSectors → m.bit i = false) :
    ∃ m₀ m₁, m.mark freeMapSector = .ok m₀ ∧ m₀.mark directorySector = .ok m₁ ∧
      m₁.numBits = numSectors ∧ ∀ i, i < numSectors → m₁.bit i = decide (i < 2) := by
  refine ⟨m.setBit 0, (m.setBit 0).setBit 1, if_pos (by rw [hbits]; decide),
    if_pos (by rw [BitMap.numBits_setBit, hbits]; decide), hbits, fun i hi => ?_⟩
  rw [BitMap.bit_setBit, BitMap.bit_setBit, hm i hi, Bool.eq_iff_iff]
  simp
  omega

theorem format_eq (d : Sectors) (fresh : Fresh) :
    ∃ fs, format d fresh = .ok fs ∧ fs.Inv ∧ fs.entries = [] ∧
      ∀ i, i < numSectors → fs.marked i = decide (i < 4) := by
  obtain ⟨m', m, hmark₀, hmark₁, hbits, hm⟩ :=
    mark_headers (BitMap.numBits_new numSectors fresh.map) fun i hi => BitMap.bit_new hi
  rw [format]
  obtain ⟨mapHdr, m₁, halloc₁, hlist₁, hL₁, hsize₁, hbits₁, hm₁⟩ :=
    allocate_one fresh.hdr freeMapFileSize (by decide) (by decide) hbits hm
  obtain ⟨dirHdr, m₂, halloc₂, hlist₂, hL₂, hsize₂, hbits₂, hm₂⟩ :=
    allocate_one fresh.dirHdr directoryFileSize (by decide) (by decide) hbits₁ hm₁
  let d₁ : Sectors := Function.update d 0 (.ofMem mapHdr.mem 0)
  let d₂ : Sectors := Function.update d₁ 1 (.ofMem dirHdr.mem 0)
  let fs₀ : FileSystem := ⟨d₂, ⟨mapHdr, 0⟩, ⟨dirHdr, 0⟩⟩
  have hmapHdr : headerAt d₂ freeMapSector = mapHdr :=
    (headerAt_congr (Function.update_of_ne (by decide) _ _)).trans (headerAt_update d mapHdr)
  have hdirHdr : headerAt d₂ directorySector = dirHdr := headerAt_update d₁ dirHdr
  have hlayout : fs₀.Layout := by
    refine ⟨?_, ?_, hL₁, hL₂, ?_, ?_⟩
    · simp only [fs₀, FileHeader.length, FileHeader.fileLength, hsize₁]
      decide
    · simp only [fs₀, FileHeader.length, FileHeader.fileLength, hsize₂]
      decide
    · simp only [fs₀, hlist₁, hlist₂]
      decide
    · simp only [fs₀, hlist₁, hlist₂]
      decide
  have hsize : (Directory.new numDirEntries fresh.table).tableSize = numDirEntries := rfl
  obtain ⟨d₃, d₄, hd₃, hd₄, hF⟩ :=
    hlayout.flush_map_dir d₂ hsize hbits₂ fresh.mapBuf fresh.dirBuf
  have hframe : ∀ x : Nat, x < 2 → d₄ x = d₂ x := by
    intro x hx
    refine hF.frame x ?_ ?_
    · simp only [fs₀, hlist₁, List.mem_singleton]
      omega
    · simp only [fs₀, hlist₂, List.mem_singleton]
      omega
  have hmap : headerAt d₄ freeMapSector = mapHdr :=
    (headerAt_congr (hframe 0 (by decide))).trans hmapHdr
  have hdir : headerAt d₄ directorySector = dirHdr :=
    (headerAt_congr (hframe 1 (by decide))).trans hdirHdr
  have hentries : FileSystem.entries { fs₀ with sectors := d₄ } = [] :=
    hF.table.entries.trans (Directory.entries_new ..)
  have hmarked : ∀ i, i < numSectors → marked { fs₀ with sectors := d₄ } i = decide (i < 4) :=
    fun i hi => (hF.bits i hi).trans (hm₂ i hi)
  have howned : owned { fs₀ with sectors := d₄ } = [0, 2, 1, 3] := by
    unfold owned files
    rw [hentries]
    simp only [List.flatMap_cons, List.flatMap_nil, holdings, hmap, hdir, hlist₁, hlist₂]
    rfl
  refine ⟨{ fs₀ with sectors := d₄ }, ?_, ?_, hentries, hmarked⟩
  · have hopen₀ : OpenFile.new d₂ freeMapSector = .ok ⟨mapHdr, 0⟩ := by
      rw [OpenFile.new, fetchFrom_eq _ (by decide), hmapHdr, ok_bind]
    have hopen₁ : OpenFile.new d₂ directorySector = .ok ⟨dirHdr, 0⟩ := by
      rw [OpenFile.new, fetchFrom_eq _ (by decide), hdirHdr, ok_bind]
    have hwrite₀ : mapHdr.writeBack d freeMapSector = .ok d₁ := writeBack_eq _ _ (by decide)
    have hwrite₁ : dirHdr.writeBack d₁ directorySector = .ok d₂ := writeBack_eq _ _ (by decide)
    simp only [hmark₀, hmark₁, halloc₁, halloc₂, hwrite₀, hwrite₁, hopen₀, hopen₁, ok_bind]
    rw [hd₃, ok_bind, hd₄, ok_bind]
  · refine ⟨⟨?_, ?_, ?_⟩, hmap.symm, hdir.symm, hlayout.mapLength, hlayout.dirLength, ?_⟩
    · rw [howned]
      decide
    · rw [howned]
      decide
    · intro i hi
      rw [hmarked i hi, howned, decide_eq_true_eq]
      simp
      omega
    · intro f hf
      rw [files, hentries, List.mem_pair] at hf
      rcases hf with rfl | rfl
      · rw [hmap]
        exact hL₁
      · rw [hdir]
        exact hL₂

end FileSystem
end Nachos

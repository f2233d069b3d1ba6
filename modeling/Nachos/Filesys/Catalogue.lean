import Nachos.Filesys.Create
import Nachos.Lib.Slots

/-! What the file system is for: a few files of fixed lengths, kept under their names.
The disk stands for such a catalogue, and every operation of the file system does to
the disk what it is to do to the catalogue; free sectors, headers and entries of the
directory no longer show. That the catalogue tells which calls of `Create` succeed is
because no sector is ever lost. -/

namespace Nachos
open Lib

/-- Files under their names, in the order of the directory. -/
abbrev Catalogue := Slots numDirEntries EntryName (List UInt8)

namespace Catalogue

/-- The sectors of a file of so many bytes: the header and the data. -/
def sectorsOf (length : Nat) : Nat := 1 + (length + (sectorSize - 1)) / sectorSize

/-- The sectors in use, with those of the free map and the directory. -/
def used (c : Catalogue) : Nat := 4 + (c.toList.map fun x => sectorsOf x.2.length).sum

/-- A new file, unless the name is there, the directory is full, or the disk. -/
def create (c : Catalogue) (nm : EntryName) (bytes : List UInt8) : Option Catalogue :=
  if c.used + sectorsOf bytes.length ≤ numSectors then c.insert nm bytes else none

end Catalogue

namespace FileSystem
open Directory

/-- The disk holds the files of the catalogue. -/
structure Stands (fs : FileSystem) (c : Catalogue) : Prop where
  inv : fs.Inv
  free : ∀ i, c.slot i = none → inUse fs.table.table i = false
  file : ∀ {i nm bytes}, c.slot i = some (nm, bytes) → fs.table.Holds nm i ∧
    (headerAt fs.sectors (sector fs.table.table i)).contents fs.sectors = bytes

variable {fs fs' : FileSystem} {c : Catalogue} {nm : EntryName} {b : Nat → UInt8}
  {bytes : List UInt8} {d : Sectors}

namespace Stands

theorem holds (h : fs.Stands c) {i : Fin numDirEntries} (hi : c.slot i = some (nm, bytes)) :
    fs.table.Holds nm i := (h.file hi).1

theorem inUse_iff (h : fs.Stands c) (i : Fin numDirEntries) :
    inUse fs.table.table i = (c.slot i).isSome := by
  cases hs : c.slot i with
  | none => exact h.free i hs
  | some x => exact (h.holds hs).2.1

theorem slot_of_holds (h : fs.Stands c) {i : Nat} (hi : fs.table.Holds nm i) :
    ∃ bytes, c.slot ⟨i, hi.1⟩ = some (nm, bytes) := by
  have hused := h.inUse_iff ⟨i, hi.1⟩
  obtain ⟨x, hx⟩ := Option.isSome_iff_exists.mp (hused.symm.trans hi.2.1)
  have hchars : x.1.chars = nm.chars := (h.holds hx).2.2.symm.trans hi.2.2
  exact ⟨x.2, by rw [hx, ← EntryName.chars_inj hchars]⟩

theorem distinct (h : fs.Stands c) : fs.table.Distinct := by
  intro i j hi hj hui huj hname
  obtain ⟨x, hx⟩ := Option.isSome_iff_exists.mp ((h.inUse_iff ⟨i, hi⟩).symm.trans hui)
  obtain ⟨y, hy⟩ := Option.isSome_iff_exists.mp ((h.inUse_iff ⟨j, hj⟩).symm.trans huj)
  have hchars : x.1.chars = y.1.chars :=
    (h.holds hx).2.2.symm.trans (hname.trans (h.holds hy).2.2)
  exact congrArg Fin.val (c.distinct hx hy (EntryName.chars_inj hchars))

theorem findIndex_eq_none (h : fs.Stands c) : fs.table.findIndex (nm.arg b) = none ↔
    c.get nm = none := by
  rw [Directory.findIndex_eq_none, Slots.get_eq_none]
  constructor
  · exact fun hnone i bytes hi => hnone i (h.holds hi)
  · intro hnone i hi
    obtain ⟨bytes, hslot⟩ := h.slot_of_holds hi
    exact hnone _ _ hslot

/-- A file is found under its name. -/
theorem find_eq (h : fs.Stands c) {i : Fin numDirEntries} (hi : c.slot i = some (nm, bytes)) :
    fs.table.find (nm.arg b) = sector fs.table.table i := by
  rw [Directory.find, h.distinct.findIndex_eq_some.mpr (h.holds hi)]

/-- Every file has its place among the entries. -/
theorem mem_entries (h : fs.Stands c) {i : Fin numDirEntries}
    (hi : c.slot i = some (nm, bytes)) : sector fs.table.table i ∈ fs.entries :=
  List.mem_map.mpr ⟨i, List.mem_filter.mpr ⟨List.mem_range.mpr i.isLt, (h.holds hi).2.1⟩, rfl⟩

theorem sector_inj (h : fs.Stands c) {i j : Fin numDirEntries} {x y : EntryName × List UInt8}
    (hi : c.slot i = some x) (hj : c.slot j = some y)
    (heq : sector fs.table.table i = sector fs.table.table j) : i = j := by
  have hnodup : (((List.range numDirEntries).filter (inUse fs.table.table)).map
      (sector fs.table.table)).Nodup :=
    (List.nodup_cons.mp (List.nodup_cons.mp h.inv.files_nodup).2).2
  have hin {k : Fin numDirEntries} {z : EntryName × List UInt8} (hk : c.slot k = some z) :
      (k : Nat) ∈ (List.range numDirEntries).filter (inUse fs.table.table) :=
    List.mem_filter.mpr ⟨List.mem_range.mpr k.isLt, (h.holds hk).2.1⟩
  exact Fin.ext (List.inj_on_of_nodup_map hnodup (hin hi) (hin hj) heq)

/-- The files of the directory, each with what is asked of its header. -/
theorem map_entries (h : fs.Stands c) {α : Type} (g : FileHeader → α) (g' : List UInt8 → α)
    (hg : ∀ s ∈ fs.entries, g (headerAt fs.sectors s) =
      g' ((headerAt fs.sectors s).contents fs.sectors)) :
    fs.entries.map (fun s => g (headerAt fs.sectors s)) = c.toList.map fun x => g' x.2 := by
  have hrange : List.range numDirEntries = (List.finRange numDirEntries).map Fin.val := by
    decide
  rw [entries, Directory.entries, hrange, Slots.toList, List.map_filterMap, List.filter_map,
    List.map_map, List.map_map, ← List.filterMap_eq_map, List.filterMap_filter]
  refine List.filterMap_congr fun i _ => ?_
  have hused := h.inUse_iff i
  cases hs : c.slot i with
  | none =>
    rw [hs] at hused
    simp only [Function.comp_apply, hused]
    rfl
  | some x =>
    rw [hs] at hused
    have hx := hg _ (h.mem_entries hs)
    rw [(h.file hs).2] at hx
    simp only [Function.comp_apply, hused, if_true, Option.map_some, hx, Option.isSome_some]

theorem length_contents (hdr : FileHeader) (d : Sectors) : (hdr.contents d).length = hdr.length :=
  bytesAt_length _ _ _

/-- The catalogue tells how many sectors are free. -/
theorem numClear_add_used (h : fs.Stands c) : fs.numClear + c.used = numSectors := by
  have hsize {s : Int} (hs : s ∈ fs.files) : (holdings fs.sectors s).length =
      Catalogue.sectorsOf (headerAt fs.sectors s).length := by
    rw [holdings, List.length_cons, FileHeader.listed, List.length_map, List.length_range,
      (h.inv.listed s hs).count, Catalogue.sectorsOf, Nat.add_comm]
    rfl
  have hmap : (holdings fs.sectors freeMapSector).length = 2 := by
    rw [hsize Inv.freeMap_mem, ← h.inv.mapHdr, h.inv.mapLength]
    decide
  have hdir : (holdings fs.sectors directorySector).length = 2 := by
    rw [hsize Inv.directory_mem, ← h.inv.dirHdr, h.inv.dirLength]
    decide
  have hentries : fs.entries.map (fun s => (holdings fs.sectors s).length) =
      c.toList.map fun x => Catalogue.sectorsOf x.2.length := by
    rw [← h.map_entries (fun hdr => Catalogue.sectorsOf hdr.length)
      (fun bytes => Catalogue.sectorsOf bytes.length) fun s _ => by rw [length_contents]]
    exact List.map_congr_left fun s hs => hsize (Inv.entry_mem hs)
  have howned : fs.owned.length = c.used := by
    rw [owned, files, List.length_flatMap, List.map_cons, List.map_cons, hmap, hdir, hentries,
      List.sum_cons, List.sum_cons, Catalogue.used]
    omega
  rw [← howned]
  exact h.inv.ledger.length_clear

/-- `Create` has room exactly if the catalogue has. -/
theorem room_iff (h : fs.Stands c) {size : BitVec 32} (hsize : size.toInt = bytes.length) :
    fs.Room (nm.arg b) size ↔ (c.create nm bytes).isSome := by
  have hclear := h.numClear_add_used
  have hround : (divRoundUp size.toInt sectorSize).toNat + 1 =
      Catalogue.sectorsOf bytes.length := by
    rw [FileHeader.toNat_divRoundUp, hsize, Int.toNat_natCast, Catalogue.sectorsOf, Nat.add_comm]
  have hlen : fs.entries.length = c.toList.length := by
    simpa using congrArg List.length (h.map_entries (fun _ => ()) (fun _ => ()) fun _ _ => rfl)
  rw [Catalogue.create]
  constructor
  · intro ⟨habsent, hentry, hsectors⟩
    rw [if_pos (by omega), Slots.insert, dif_pos (h.findIndex_eq_none.mp habsent),
      Option.isSome_map, Slots.free_isSome_iff, ← hlen]
    exact hentry
  · intro hsome
    split at hsome
    · rename_i hroom
      obtain ⟨c', hc'⟩ := Option.isSome_iff_exists.mp hsome
      obtain ⟨hget, i, hfree, -⟩ := Slots.insert_eq_some.mp hc'
      refine ⟨h.findIndex_eq_none.mpr hget, ?_, by omega⟩
      rw [hlen]
      exact Slots.free_isSome_iff.mp (Option.isSome_iff_exists.mpr ⟨i, hfree⟩)
    · cases hsome

end Stands

/-! ## What the operations write -/

theorem contents_congr {hdr : FileHeader} {d' : Sectors} (hl : hdr.Listed)
    (hd : ∀ x ∈ hdr.listed, d' x.toNat = d x.toNat) : hdr.contents d' = hdr.contents d :=
  bytesAt_congr fun j hj => by
    rw [Nat.zero_add]
    exact byte_congr hl hd hj

/-- The directory behind a `Create` that succeeds. -/
theorem create_table {name : Nat → UInt8} {size : BitVec 32} {fresh : Fresh} (hI : fs.Inv)
    (h : fs.create name size fresh = .ok (true, fs')) :
    ∃ dir dir' s, IsInt s ∧ Agrees fs.table dir ∧ dir.add name s = (true, dir') ∧
      Agrees dir' fs'.table := by
  obtain ⟨dir, hdir, hagree⟩ := hI.directory_eq fresh
  obtain ⟨m, hm, hbits, -⟩ := hI.freeMap_eq fresh
  rw [create, hdir, ok_bind] at h
  split at h
  · cases h
  rw [hm, ok_bind] at h
  by_cases hfull : m.numClear = 0
  · rw [BitMap.find_of_full hfull] at h
    cases h
  obtain ⟨s, hs, -, -, hsearch⟩ := BitMap.find_of_clear (Nat.pos_of_ne_zero hfull)
  rw [hbits] at hs
  simp only [hsearch] at h
  rw [if_neg (by omega)] at h
  cases hadd : dir.add name s with
  | mk added dir' =>
    cases added with
    | false =>
      rw [hadd] at h
      cases h
    | true =>
      rw [hadd] at h
      obtain ⟨⟨done, hdr, m'⟩, halloc, h⟩ := bind_eq_ok.mp h
      cases done with
      | false => cases h
      | true =>
        obtain ⟨d₁, -, h⟩ := bind_eq_ok.mp h
        obtain ⟨d₂, hd₂, h⟩ := bind_eq_ok.mp h
        obtain ⟨d₃, hd₃, h⟩ := bind_eq_ok.mp h
        cases h
        obtain ⟨-, -, -, -, -, -, ⟨hnum, -⟩, -⟩ :=
          FileHeader.allocate_eq (by rw [BitMap.numBits_setBit, hbits]; decide) halloc
        obtain ⟨htab, -⟩ := Directory.entries_add (isInt_sector hs) hadd
        rw [hagree.size] at htab
        obtain ⟨e₂, e₃, he₂, he₃, hF⟩ := hI.layout.flush_dir_map d₁ htab
          (hnum.trans hbits) fresh.dirBuf fresh.mapBuf
        cases hd₂.symm.trans he₂
        cases hd₃.symm.trans he₃
        exact ⟨dir, dir', s, isInt_sector hs, hagree, hadd, htab.symm, hF.table.table⟩

theorem numBits_deallocateFrom {hdr : FileHeader} {m m' : BitMap} {i n : Nat}
    (h : hdr.deallocateFrom m i n = .ok m') : m'.numBits = m.numBits := by
  induction n generalizing m i with
  | zero =>
    cases h
    rfl
  | succ n ih =>
    unfold FileHeader.deallocateFrom at h
    split at h
    · obtain ⟨marked, -, h⟩ := bind_eq_ok.mp h
      cases marked with
      | false => cases h
      | true =>
        obtain ⟨m₁, hm₁, h⟩ := bind_eq_ok.mp h
        unfold BitMap.clear at hm₁
        split at hm₁
        · cases hm₁
          exact (ih h :)
        · cases hm₁
    · cases h

/-- The directory and the rest of the disk behind a `Remove` that succeeds. -/
theorem remove_table {name : Nat → UInt8} {fresh : Fresh} (hI : fs.Inv)
    (h : fs.remove name fresh = .ok (true, fs')) :
    ∃ dir, Agrees fs.table dir ∧ Agrees (dir.remove name).2 fs'.table ∧
      ∀ x : Nat, (x : Int) ∉ fs.freeMapFile.hdr.listed → (x : Int) ∉ fs.directoryFile.hdr.listed →
        fs'.sectors x = fs.sectors x := by
  obtain ⟨dir, hdir, hagree⟩ := hI.directory_eq fresh
  obtain ⟨m, hm, hbits, -⟩ := hI.freeMap_eq fresh
  rw [remove, hdir, ok_bind] at h
  dsimp only at h
  split at h
  · cases h
  obtain ⟨hdr, -, h⟩ := bind_eq_ok.mp h
  rw [hm, ok_bind] at h
  obtain ⟨m₁, hm₁, h⟩ := bind_eq_ok.mp h
  obtain ⟨m₂, hm₂, h⟩ := bind_eq_ok.mp h
  obtain ⟨d₁, hd₁, h⟩ := bind_eq_ok.mp h
  obtain ⟨d₂, hd₂, h⟩ := bind_eq_ok.mp h
  cases h
  have hnum : m₂.numBits = numSectors := by
    unfold BitMap.clear at hm₂
    split at hm₂
    · cases hm₂
      exact (numBits_deallocateFrom hm₁).trans hbits
    · cases hm₂
  have htab : (dir.remove name).2.tableSize = numDirEntries := by
    unfold Directory.remove
    split
    · exact hagree.size
    · exact hagree.size
  obtain ⟨e₁, e₂, he₁, he₂, hF⟩ :=
    hI.layout.flush_map_dir fs.sectors htab hnum fresh.mapBuf fresh.dirBuf
  cases hd₁.symm.trans he₁
  cases hd₂.symm.trans he₂
  exact ⟨dir, hagree, ⟨htab.symm, hF.table.table⟩, hF.frame⟩

/-! ## The operations on the catalogue -/

/-- An entry that neither the directory's copy nor its way to the disk and back
changes. -/
theorem sameEntry_of_agrees {dir dir' : Directory} {j : Nat} (h : Agrees fs.table dir)
    (hs : SameEntry dir.table dir'.table j) (h' : Agrees dir' fs'.table)
    (hj : j < dir'.tableSize) (hsize : dir'.tableSize = dir.tableSize) :
    SameEntry fs.table.table fs'.table.table j :=
  ((h.sameEntry (by rw [← h.size, ← hsize]; exact hj)).trans hs).trans (h'.sameEntry hj)

/-- A file whose entry and sectors are as before. -/
theorem Stands.kept (h : fs.Stands c) {j : Fin numDirEntries}
    (hj : c.slot j = some (nm, bytes)) (hsame : SameEntry fs.table.table fs'.table.table j)
    (hkept : ∀ f ∈ fs.files, headerAt fs'.sectors f = headerAt fs.sectors f)
    (hdata : ∀ f ∈ fs.entries, ∀ x ∈ (headerAt fs.sectors f).listed,
      fs'.sectors x.toNat = fs.sectors x.toNat) :
    fs'.table.Holds nm j ∧
      (headerAt fs'.sectors (sector fs'.table.table j)).contents fs'.sectors = bytes := by
  obtain ⟨-, hused, hname⟩ := h.holds hj
  have hmem := h.mem_entries hj
  refine ⟨⟨j.isLt, hsame.inUse.trans hused, hsame.nameAt.trans hname⟩, ?_⟩
  rw [hsame.sector, hkept _ (Inv.entry_mem hmem),
    contents_congr (h.inv.listed _ (Inv.entry_mem hmem)) (hdata _ hmem)]
  exact (h.file hj).2

/-- The first free entry of the directory is the first free place. -/
theorem Stands.find_free (h : fs.Stands c) {dir : Directory} (hagree : Agrees fs.table dir) :
    ((List.range dir.tableSize).find? fun i => !inUse dir.table i) = c.free.map Fin.val := by
  have hsize : dir.tableSize = numDirEntries := hagree.size
  have hrange : List.range numDirEntries = (List.finRange numDirEntries).map Fin.val := by
    decide
  rw [hsize, hrange, List.find?_map, Slots.free]
  congr 1
  refine List.find?_congr fun i _ => ?_
  have hused := h.inUse_iff i
  rw [← (hagree.sameEntry i.isLt).inUse] at hused
  simp only [Function.comp_apply, hused, Option.not_isSome]

/-- `Create`, of a file whose bytes are not yet told. -/
theorem Stands.create (h : fs.Stands c) (nm : EntryName) (b : Nat → UInt8) {size : BitVec 32}
    {n : Nat} (hsize : size.toInt = n) (fresh : Fresh) :
    (fs.create (nm.arg b) size fresh = .ok (false, fs) ∧
      ∀ bytes : List UInt8, bytes.length = n → c.create nm bytes = none) ∨
    (∃ fs' bytes c', n ≤ maxFileSize ∧ fs.create (nm.arg b) size fresh = .ok (true, fs') ∧
      bytes.length = n ∧ c.create nm bytes = some c' ∧ fs'.Stands c') ∨
    (maxFileSize < n ∧ fs.create (nm.arg b) size fresh = .error .undefined ∧
      ∀ bytes : List UInt8, bytes.length = n → (c.create nm bytes).isSome) := by
  rcases create_cases h.inv (nm.arg b) size fresh with
    ⟨hno, hroom⟩ | ⟨hroom, fs', s, ss, hyes, hC, hframe⟩ | ⟨hroom, hbig, herr⟩
  · refine .inl ⟨hno, fun bytes hlen => ?_⟩
    rw [← Option.not_isSome_iff_eq_none, ← h.room_iff (hsize.trans (by rw [hlen]))]
    exact hroom
  · refine .inr (.inl ?_)
    let new := (headerAt fs'.sectors s).contents fs'.sectors
    have hlen : new.length = n := by
      rw [Stands.length_contents, FileHeader.length, FileHeader.fileLength, hC.size, hsize]
      rfl
    obtain ⟨c', hc'⟩ := Option.isSome_iff_exists.mp ((h.room_iff (hsize.trans (by rw [hlen]))).mp
      hroom)
    have hfit : n ≤ maxFileSize := by
      have hle := (hC.inv.listed _ (Inv.entry_mem
        (hC.entries.mem_iff.mpr List.mem_cons_self))).size_le
      rw [hC.size, hsize] at hle
      omega
    refine ⟨fs', new, c', hfit, hyes, hlen, hc', ?_⟩
    have hinsert : c.insert nm new = some c' := by
      unfold Catalogue.create at hc'
      split at hc'
      · exact hc'
      · cases hc'
    obtain ⟨hget, i, hfree, hslot⟩ := Slots.insert_eq_some.mp hinsert
    obtain ⟨dir, dir', s', hint, hagree, hadd, hagree'⟩ := create_table h.inv hyes
    have hnone : dir.findIndex (nm.arg b) = none := by
      rw [hagree.findIndex]
      exact h.findIndex_eq_none.mpr hget
    have hdir' : dir' = ⟨dir.tableSize, added dir.table i (nm.arg b) s'⟩ := by
      have hi := h.find_free hagree
      rw [hfree] at hi
      unfold Directory.add at hadd
      rw [hnone] at hadd
      simp only [hi] at hadd
      cases hadd
      rfl
    subst hdir'
    have hsize' : dir.tableSize = numDirEntries := hagree.size
    have hother {j : Fin numDirEntries} (hj : j ≠ i) :
        SameEntry fs.table.table fs'.table.table j :=
      sameEntry_of_agrees hagree (sameEntry_added fun he => hj (Fin.ext he)) hagree'
        (by rw [hsize']; exact j.isLt) rfl
    have hself : SameEntry (added dir.table i (nm.arg b) s') fs'.table.table i :=
      hagree'.sameEntry (by rw [hsize']; exact i.isLt)
    have hholds : fs'.table.Holds nm i := by
      refine ⟨i.isLt, ?_, ?_⟩
      · rw [hself.inUse]
        exact inUse_added
      · rw [hself.nameAt, nameAt_added, nm.strChars_arg]
    have hsector : sector fs'.table.table i = s := by
      rw [hself.sector, sector_added hint, ← hC.found, hagree'.find, find_add hint hadd]
    have hkept {j : Fin numDirEntries} {nm' : EntryName} {bytes : List UInt8} (hj : j ≠ i)
        (hslot : c.slot j = some (nm', bytes)) := h.kept hslot (hother hj) hC.kept
      fun f hf x hx => by
        obtain ⟨hne, hmap, hdir⟩ := h.inv.untouched hf (List.mem_cons_of_mem _ hx)
          (hC.clear s List.mem_cons_self)
        exact hframe _ hne hmap hdir
    refine ⟨hC.inv, fun j hj => ?_, fun {j nm' bytes} hj => ?_⟩
    · rw [hslot] at hj
      have hji : j ≠ i := by
        rintro rfl
        rw [Function.update_self] at hj
        cases hj
      rw [Function.update_of_ne hji] at hj
      exact (hother hji).inUse.trans (h.free j hj)
    · rw [hslot, Function.update_apply] at hj
      split at hj
      · rename_i hji
        cases hj
        subst hji
        refine ⟨hholds, ?_⟩
        rw [hsector]
      · rename_i hji
        exact hkept hji hj
  · rw [hsize] at hbig
    exact .inr (.inr ⟨by omega, herr, fun bytes hlen =>
      (h.room_iff (hsize.trans (by rw [hlen]))).mp hroom⟩)

theorem Stands.get_isSome (h : fs.Stands c) :
    (c.get nm).isSome = (fs.table.findIndex (nm.arg b)).isSome := by
  rw [Bool.eq_iff_iff, ← not_iff_not, Bool.not_eq_true, Bool.not_eq_true,
    Option.isSome_eq_false_iff, Option.isSome_eq_false_iff, Option.isNone_iff_eq_none,
    Option.isNone_iff_eq_none]
  exact h.findIndex_eq_none.symm

/-- `Remove`. -/
theorem Stands.remove (h : fs.Stands c) (nm : EntryName) (b : Nat → UInt8) (fresh : Fresh) :
    ∃ fs', fs.remove (nm.arg b) fresh = .ok ((c.get nm).isSome, fs') ∧ fs'.Stands (c.erase nm) := by
  rw [h.get_isSome (b := b)]
  rcases remove_cases h.inv (nm.arg b) fresh with ⟨hno, hnone⟩ | ⟨fs', hyes, hR⟩
  · have hget : c.get nm = none := h.findIndex_eq_none.mp hnone
    have hslot {i : Fin numDirEntries} {x : EntryName × List UInt8} (hi : c.slot i = some x) :
        (c.erase nm).slot i = some x := by
      refine Option.filter_eq_some_iff.mpr ⟨hi, decide_eq_true fun hx => ?_⟩
      exact Slots.get_eq_none.mp hget i x.2 (by rw [hi, ← hx])
    refine ⟨fs, by rw [hnone]; exact hno, h.inv, fun i hi => ?_, fun hi => ?_⟩
    · cases hi' : c.slot i with
      | none => exact h.free i hi'
      | some x => cases (hslot hi').symm.trans hi
    · exact h.file (Option.filter_eq_some_iff.mp hi).1
  · cases hindex : fs.table.findIndex (nm.arg b) with
    | none =>
      have hmem : fs.table.find (nm.arg b) ∈ fs.entries :=
        hR.entries.mem_iff.mpr List.mem_cons_self
      rw [Directory.find, hindex] at hmem
      exact absurd (h.inv.bound (Inv.entry_mem hmem)).1 (show ¬ (0 : Int) ≤ -1 by decide)
    | some i =>
      obtain ⟨dir, hagree, hagree', hframe⟩ := remove_table h.inv hyes
      have hi := holds_of_findIndex hindex
      obtain ⟨old, hold⟩ := h.slot_of_holds hi
      have hremove : (dir.remove (nm.arg b)).2 = ⟨dir.tableSize, setInUse dir.table i 0⟩ := by
        rw [Directory.remove, hagree.findIndex, hindex]
      rw [hremove] at hagree'
      have hsize : dir.tableSize = numDirEntries := hagree.size
      have hother {j : Fin numDirEntries} (hj : (j : Nat) ≠ i) :
          SameEntry fs.table.table fs'.table.table j :=
        sameEntry_of_agrees hagree (sameEntry_setInUse 0 hj) hagree' (by rw [hsize]; exact j.isLt)
          rfl
      refine ⟨fs', hyes, hR.inv, fun j hj => ?_, fun {j nm' bytes} hj => ?_⟩
      · by_cases hji : (j : Nat) = i
        · rw [hji, (hagree'.sameEntry (by rw [hsize]; exact hi.1)).inUse]
          exact inUse_setInUse 0
        · rw [(hother hji).inUse]
          refine h.free j ?_
          cases hj' : c.slot j with
          | none => rfl
          | some x =>
            have hne : x.1 ≠ nm := fun hx => hji (congrArg Fin.val (c.distinct hj' hold hx))
            have hkeep : (c.erase nm).slot j = some x :=
              Option.filter_eq_some_iff.mpr ⟨hj', decide_eq_true hne⟩
            cases hkeep.symm.trans hj
      · obtain ⟨hj', hne⟩ := Option.filter_eq_some_iff.mp hj
        have hji : (j : Nat) ≠ i := by
          rintro rfl
          cases hold.symm.trans hj'
          exact of_decide_eq_true hne rfl
        refine h.kept hj' (hother hji) hR.kept fun f hf x hx => ?_
        have hfile := Inv.entry_mem hf
        have hnat : (x.toNat : Int) = x := Int.toNat_of_nonneg (h.inv.listed_bound hfile hx).1
        obtain ⟨hmap, hdir⟩ := h.inv.entry_ne hf
        refine hframe _ ?_ ?_
        · rw [hnat, h.inv.mapHdr]
          exact h.inv.listed_disjoint hfile Inv.freeMap_mem hmap.symm hx
        · rw [hnat, h.inv.dirHdr]
          exact h.inv.listed_disjoint hfile Inv.directory_mem hdir.symm hx

/-- `Open`. -/
theorem Stands.openFile (h : fs.Stands c) (nm : EntryName) (b : Nat → UInt8) (fresh : Fresh) :
    match c.get nm with
    | none => fs.openFile (nm.arg b) fresh = .ok none
    | some bytes => ∃ i, c.slot i = some (nm, bytes) ∧ fs.openFile (nm.arg b) fresh =
        .ok (some ⟨headerAt fs.sectors (sector fs.table.table i), 0⟩) := by
  obtain ⟨dir, hdir, hagree⟩ := h.inv.directory_eq fresh
  cases hget : c.get nm with
  | none =>
    have hnone : fs.table.findIndex (nm.arg b) = none := h.findIndex_eq_none.mpr hget
    dsimp only
    rw [FileSystem.openFile, hdir, ok_bind, hagree.find, Directory.find, hnone]
    rfl
  | some bytes =>
    obtain ⟨i, hi⟩ := Slots.get_eq_some.mp hget
    have hb := h.inv.bound (Inv.entry_mem (h.mem_entries hi))
    refine ⟨i, hi, ?_⟩
    rw [FileSystem.openFile, hdir, ok_bind, hagree.find, h.find_eq hi, if_pos hb.1, OpenFile.new,
      fetchFrom_eq _ hb, ok_bind, ok_bind]

/-- Writes to one file. -/
theorem Stands.write {c' : Catalogue} {i : Fin numDirEntries} {old : List UInt8} (h : fs.Stands c)
    (hi : c.slot i = some (nm, old)) (hw : fs.WithinFile (sector fs.table.table i) d)
    (hnew : (headerAt fs.sectors (sector fs.table.table i)).contents d = bytes)
    (hc' : c'.slot = Function.update c.slot i (some (nm, bytes))) :
    Stands { fs with sectors := d } c' := by
  have hmem := h.mem_entries hi
  have hsame (j : Fin numDirEntries) :
      SameEntry fs.table.table (FileSystem.table { fs with sectors := d }).table j :=
    (hw.table h.inv hmem).sameEntry j.isLt
  refine ⟨hw.inv h.inv hmem, fun j hj => ?_, fun {j nm' bytes'} hj => ?_⟩
  · rw [hc', Function.update_apply] at hj
    split at hj
    · cases hj
    · exact (hsame j).inUse.trans (h.free j hj)
  · rw [hc', Function.update_apply] at hj
    split at hj
    · rename_i hji
      cases hj
      subst hji
      obtain ⟨-, hused, hname⟩ := h.holds hi
      refine ⟨⟨j.isLt, (hsame j).inUse.trans hused, (hsame j).nameAt.trans hname⟩, ?_⟩
      rw [(hsame j).sector]
      exact (congrArg (FileHeader.contents · d)
        (hw.header h.inv (Inv.entry_mem hmem) (Inv.entry_mem hmem))).trans hnew
    · rename_i hji
      obtain ⟨-, hused, hname⟩ := h.holds hj
      refine ⟨⟨j.isLt, (hsame j).inUse.trans hused, (hsame j).nameAt.trans hname⟩, ?_⟩
      rw [(hsame j).sector]
      have hne : sector fs.table.table j ≠ sector fs.table.table i := fun he =>
        hji (h.sector_inj hj hi he)
      exact (hw.contents h.inv (Inv.entry_mem hmem) (Inv.entry_mem (h.mem_entries hj)) hne).trans
        (h.file hj).2

/-- The files are still there when Nachos is started the next time. -/
theorem Stands.mount (h : fs.Stands c) : ∃ fs', mount fs.sectors = .ok fs' ∧ fs'.Stands c := by
  have hmap : OpenFile.new fs.sectors freeMapSector = .ok ⟨fs.freeMapFile.hdr, 0⟩ := by
    rw [OpenFile.new, fetchFrom_eq _ (by decide), h.inv.mapHdr]
    rfl
  have hdir : OpenFile.new fs.sectors directorySector = .ok ⟨fs.directoryFile.hdr, 0⟩ := by
    rw [OpenFile.new, fetchFrom_eq _ (by decide), h.inv.dirHdr]
    rfl
  refine ⟨⟨fs.sectors, ⟨fs.freeMapFile.hdr, 0⟩, ⟨fs.directoryFile.hdr, 0⟩⟩, ?_,
    ⟨h.inv.ledger, h.inv.mapHdr, h.inv.dirHdr, h.inv.mapLength, h.inv.dirLength, h.inv.listed⟩,
    h.free, h.file⟩
  rw [FileSystem.mount, hmap, ok_bind, hdir, ok_bind]

/-- A new disk is empty. -/
theorem format_stands (d : Sectors) (fresh : Fresh) :
    ∃ fs, format d fresh = .ok fs ∧ fs.Stands .empty := by
  obtain ⟨fs, hfs, hI, hempty, -⟩ := format_eq d fresh
  refine ⟨fs, hfs, hI, fun i _ => ?_, fun hi => ?_⟩
  · by_contra hused
    have hmem : sector fs.table.table i ∈ fs.entries := List.mem_map.mpr
      ⟨i, List.mem_filter.mpr ⟨List.mem_range.mpr i.isLt, (Bool.not_eq_false _).mp hused⟩, rfl⟩
    rw [hempty] at hmem
    cases hmem
  · cases hi

end FileSystem
end Nachos

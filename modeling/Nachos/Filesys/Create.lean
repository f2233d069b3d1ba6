import Nachos.Filesys.Handles
import Nachos.Filesys.Names

/-! `FileSystem::Create`. A sector for the header, an entry of the directory and
the data sectors are taken one after the other in copies, and the copies are
written back only if all of them were found. What is not looked at is whether the
header has room for the data sectors. -/

namespace Nachos
open Lib

namespace FileSystem

/-- A file of the name is in the directory. -/
def Present (fs : FileSystem) (nm : EntryName) : Prop := ∃ i, fs.table.Holds nm i

variable {fs fs' : FileSystem} {nm : EntryName} {b : Nat → UInt8} {size : BitVec 32}

theorem not_room_iff : ¬ fs.Room (nm.arg b) size ↔ fs.Present nm ∨
    fs.entries.length = numDirEntries ∨
    fs.numClear < 1 + (divRoundUp size.toInt sectorSize).toNat := by
  have hle : fs.entries.length ≤ numDirEntries := Directory.entries_length_le _ _
  constructor
  · intro h
    by_contra hnone
    obtain ⟨habsent, hentry, hclear⟩ : ¬ fs.Present nm ∧
        fs.entries.length ≠ numDirEntries ∧
        ¬ fs.numClear < 1 + (divRoundUp size.toInt sectorSize).toNat := by
      simpa only [not_or] using hnone
    exact h ⟨Directory.findIndex_eq_none.mpr (not_exists.mp habsent), by omega, by omega⟩
  · intro h hroom
    have hentry := hroom.entry
    have hclear := hroom.sectors
    rcases h with ⟨i, hi⟩ | h | h
    · exact Directory.findIndex_eq_none.mp hroom.absent i hi
    · omega
    · omega

/-- `Open` of the new file. -/
theorem Created.openFile {s : Nat} {ss : List Nat} (hC : Created fs fs' (nm.arg b) size s ss)
    (b' : Nat → UInt8) (fresh : Fresh) :
    fs'.openFile (nm.arg b') fresh = .ok (some ⟨headerAt fs'.sectors s, 0⟩) := by
  have hfound : fs'.table.find (nm.arg b') = s := by
    rw [Directory.find_eq_lookup, ← hC.found, Directory.find_eq_lookup]
  have hmem : (s : Int) ∈ fs'.entries := hC.entries.mem_iff.mpr List.mem_cons_self
  obtain ⟨dir, hdir, hagree⟩ := hC.inv.directory_eq fresh
  have hb := hC.inv.bound (Inv.entry_mem hmem)
  rw [FileSystem.openFile, hdir, ok_bind, hagree.find, hfound, if_pos hb.1, OpenFile.new,
    fetchFrom_eq _ hb, ok_bind, ok_bind]

/-- A sector of an old file is none that `Create` writes. -/
theorem Inv.untouched (hI : fs.Inv) {f x : Int} {s : Nat} (hf : f ∈ fs.entries)
    (hx : x ∈ holdings fs.sectors f) (hs : s < numSectors ∧ fs.marked s = false) :
    x.toNat ≠ s ∧ (x.toNat : Int) ∉ fs.freeMapFile.hdr.listed ∧
      (x.toNat : Int) ∉ fs.directoryFile.hdr.listed := by
  have hfile := entry_mem hf
  have howned := mem_owned hfile hx
  obtain ⟨hmap, hdir⟩ := hI.entry_ne hf
  have hnat : (x.toNat : Int) = x := Int.toNat_of_nonneg (hI.ledger.bound x howned).1
  refine ⟨fun hxs => ?_, fun hmem => ?_, fun hmem => ?_⟩
  · refine (hI.ledger.unmarked_iff hs.1).mp hs.2 ?_
    rw [← hxs, hnat]
    exact howned
  · rw [hnat, hI.mapHdr] at hmem
    exact hI.holdings_disjoint freeMap_mem hfile hmap (List.mem_cons_of_mem _ hmem) hx
  · rw [hnat, hI.dirHdr] at hmem
    exact hI.holdings_disjoint directory_mem hfile hdir (List.mem_cons_of_mem _ hmem) hx

/-- A file that has been created is there. -/
theorem Inv.created (hI : fs.Inv) {fresh : Fresh}
    (h : fs.create (nm.arg b) size fresh = .ok (true, fs')) : fs'.Inv ∧ fs'.Present nm := by
  rcases create_cases hI (nm.arg b) size fresh with
    ⟨hno, -⟩ | ⟨-, fs₁, s, ss, hyes, hC, -⟩ | ⟨-, -, herr⟩
  · cases hno.symm.trans h
  · cases hyes.symm.trans h
    refine ⟨hC.inv, ?_⟩
    by_contra habsent
    have hnone : fs'.table.findIndex (nm.arg b) = none :=
      Directory.findIndex_eq_none.mpr (not_exists.mp habsent)
    have hfound := hC.found
    rw [Directory.find, hnone] at hfound
    cases hfound
  · cases herr.symm.trans h

/-- `Create` returns FALSE exactly if the name is there, the directory is full, or
the free sectors do not suffice for the header and the data, and then it has not
written a sector. Otherwise `Open` finds the file, with the size asked for, and
every sector of every other file is as before. -/
theorem create_atomic (hI : fs.Inv) (nm : EntryName) (b : Nat → UInt8) {size : BitVec 32}
    (hsize : size.toInt ≤ maxFileSize) (fresh : Fresh) :
    ∃ done fs', fs.create (nm.arg b) size fresh = .ok (done, fs') ∧
      (done = false ↔ fs.Present nm ∨ fs.entries.length = numDirEntries ∨
        fs.numClear < 1 + (divRoundUp size.toInt sectorSize).toNat) ∧
      (done = false → fs'.sectors = fs.sectors) ∧
      (done = true →
        (∀ b' fresh', ∃ file, fs'.openFile (nm.arg b') fresh' = .ok (some file) ∧
          file.hdr.numBytes = size) ∧
        ∀ f ∈ fs.entries, ∀ x ∈ holdings fs.sectors f,
          fs'.sectors x.toNat = fs.sectors x.toNat) := by
  rcases create_cases hI (nm.arg b) size fresh with
    ⟨hno, hroom⟩ | ⟨hroom, fs', s, ss, hyes, hC, hframe⟩ | ⟨-, hbig, -⟩
  · exact ⟨false, fs, hno, iff_of_true rfl (not_room_iff.mp hroom), fun _ => rfl, nofun⟩
  · refine ⟨true, fs', hyes, iff_of_false (by simp) fun h => not_room_iff.mpr h hroom, nofun,
      fun _ => ⟨fun b' fresh' => ⟨_, hC.openFile b' fresh', hC.size⟩, fun f hf x hx => ?_⟩⟩
    obtain ⟨hne, hmap, hdir⟩ := hI.untouched hf hx (hC.clear s List.mem_cons_self)
    exact hframe _ hne hmap hdir
  · omega

/-- On an empty disk a file of one byte is created, and then not once more. -/
theorem create_atomic_first :
    ∃ fs fs' fs'', format (fun _ _ => 0) Volume.zeros = .ok fs ∧
      fs.create (Directory.Session.nameA.arg fun _ => 1) 1 Volume.zeros = .ok (true, fs') ∧
      fs'.create (Directory.Session.nameA.arg fun _ => 2) 1 Volume.zeros = .ok (false, fs'') ∧
      fs''.sectors = fs'.sectors := by
  obtain ⟨fs, hfs, hI, hempty, hm⟩ := format_eq (fun _ _ => 0) Volume.zeros
  have hsize : (1 : BitVec 32).toInt ≤ maxFileSize := by decide
  obtain ⟨done, fs', hcreate, hiff, -⟩ := create_atomic hI Directory.Session.nameA (fun _ => 1)
    hsize Volume.zeros
  have hroom : fs.Room (Directory.Session.nameA.arg fun _ => 1) 1 :=
    room_empty hempty hm (by decide)
  cases done with
  | false => exact absurd hroom (not_room_iff.mpr (hiff.mp rfl))
  | true =>
    obtain ⟨hI', hpresent⟩ := hI.created hcreate
    obtain ⟨done, fs'', hagain, hiff', hsame, -⟩ := create_atomic hI' Directory.Session.nameA
      (fun _ => 2) hsize Volume.zeros
    obtain rfl : done = false := hiff'.mpr (.inl hpresent)
    exact ⟨fs, fs', fs'', hfs, hcreate, hagain, hsame rfl⟩

end FileSystem

/-! ## Files that do not fit a header -/

namespace FileHeader

/-- Written to the disk and fetched again, the header locates every byte of the
file in a sector that was clear in `freeMap` and is marked in `freeMap'`. -/
def Locates (h : FileHeader) (freeMap freeMap' : BitMap) (fileSize : BitVec 32) : Prop :=
  ∀ (d : Sectors) (s : Nat), s < Nachos.numSectors →
    ∃ d' h', h.writeBack d s = .ok d' ∧ fetchFrom d' s = .ok h' ∧
      ∀ offset, 0 ≤ offset → offset < fileSize.toInt →
        ∃ sector : Nat, h'.byteToSector offset = .ok sector ∧
          sector < freeMap.numBits ∧ freeMap.bit sector = false ∧ freeMap'.bit sector = true

/-- `Allocate` fails, or it enters at most as many sectors as the header has room
for, and the header then locates the whole file. -/
def AllocatesWithin (h : FileHeader) (freeMap : BitMap) (fileSize : BitVec 32) : Prop :=
  (∃ r, h.allocate freeMap fileSize = .ok (false, r)) ∨
    ∃ h' freeMap', h.allocate freeMap fileSize = .ok (true, h', freeMap') ∧
      h'.numSectors.toInt ≤ numDirect ∧ h'.Locates freeMap freeMap' fileSize

variable {h h' : FileHeader} {m m' : BitMap} {size : BitVec 32}

theorem Listed.size_le (hl : h.Listed) : h.numBytes.toInt ≤ maxFileSize := by
  have hfits := hl.fits
  unfold blocks length fileLength at hfits
  simp only [sectorSize, maxFileSize, numDirect] at *
  omega

/-- Every byte of a file lies in one of the sectors its header lists. -/
theorem Listed.byteToSector (hl : h.Listed) {offset : Int} (h0 : 0 ≤ offset)
    (hlt : offset < h.numBytes.toInt) : ∃ s ∈ h.listed, h.byteToSector offset = .ok s := by
  obtain ⟨q, rfl⟩ := Int.eq_ofNat_of_zero_le h0
  have hlen : q < h.length := by
    unfold length fileLength
    omega
  have hb := h.div_lt_blocks hlen
  have hfits := hl.fits
  refine ⟨_, mem_listed.mpr ⟨q / sectorSize, by rw [hl.count]; exact hb, rfl⟩, ?_⟩
  unfold FileHeader.byteToSector
  simp only [tdiv_sectorSize]
  rw [if_pos (by simp only [sectorSize] at *; omega), Int.toNat_natCast]

theorem locates_of_allocate (hm : IsInt m.numBits)
    (h : h.allocate m size = .ok (true, h', m')) :
    h'.numSectors.toInt ≤ numDirect ∧ h'.Locates m m' size := by
  obtain ⟨ss, hss, hl, hbytes, -, hclear, ⟨-, hbit⟩, -⟩ := allocate_eq hm h
  have hfits := hl.fits
  rw [← hl.count] at hfits
  refine ⟨by omega, fun d s hs => ?_⟩
  have hon : 0 ≤ (s : Int) ∧ (s : Int) < Nachos.numSectors := by omega
  refine ⟨_, h', FileSystem.writeBack_eq h' d hs, ?_, fun offset h0 hlt => ?_⟩
  · rw [FileSystem.fetchFrom_eq _ hon]
    exact congrArg _ (FileSystem.headerAt_update d h')
  · rw [← hbytes] at hlt
    obtain ⟨x, hx, hloc⟩ := hl.byteToSector h0 hlt
    rw [hss] at hx
    obtain ⟨sector, hmem, rfl⟩ := List.mem_map.mp hx
    obtain ⟨hlt', hfree⟩ := hclear sector hmem
    exact ⟨sector, hloc, hlt', hfree, by rw [hbit, decide_eq_true hmem, Bool.or_true]⟩

theorem allocatesWithin_iff (hm : IsInt m.numBits) : h.AllocatesWithin m size ↔
    (m.numClear : Int) < divRoundUp size.toInt sectorSize ∨ size.toInt ≤ maxFileSize := by
  constructor
  · intro hw
    rcases hw with hfalse | ⟨h', m', hok, -⟩
    · exact Or.inl (allocate_false_iff.mp hfalse)
    · obtain ⟨ss, -, hl, hbytes, -⟩ := allocate_eq hm hok
      exact Or.inr (hbytes ▸ hl.size_le)
  · intro hor
    by_cases hfalse : ∃ r, h.allocate m size = .ok (false, r)
    · exact Or.inl hfalse
    · have hsize := hor.resolve_left fun hless => hfalse (allocate_false_iff.mpr hless)
      obtain ⟨⟨done, h', m'⟩, hok⟩ := allocate_returns (h := h) hm hsize
      cases done with
      | false => exact absurd ⟨_, hok⟩ hfalse
      | true => exact Or.inr ⟨h', m', hok, locates_of_allocate hm hok⟩

end FileHeader

namespace FileSystem
variable {fs : FileSystem} {name : Nat → UInt8} {size : BitVec 32}

theorem create_returns_iff (hI : fs.Inv) (fresh : Fresh) :
    (∃ r, fs.create name size fresh = .ok r) ↔
      ¬ fs.Room name size ∨ size.toInt ≤ maxFileSize := by
  rcases create_cases hI name size fresh with
    ⟨hno, hroom⟩ | ⟨-, fs', s, ss, hyes, hC, -⟩ | ⟨hroom, hbig, herr⟩
  · exact iff_of_true ⟨_, hno⟩ (Or.inl hroom)
  · have hmem : (s : Int) ∈ fs'.files :=
      Inv.entry_mem (hC.entries.mem_iff.mpr List.mem_cons_self)
    exact iff_of_true ⟨_, hyes⟩ (Or.inr (hC.size ▸ (hC.inv.listed _ hmem).size_le))
  · refine iff_of_false ?_ (not_or.mpr ⟨not_not.mpr hroom, by omega⟩)
    intro ⟨r, hr⟩
    rw [herr] at hr
    cases hr

/-- `Allocate` stays within its header exactly for the sizes a header has room
for, and where the free sectors do not suffice; and so it is with `Create`. -/
theorem header_suffices_iff (h : FileHeader) (m : BitMap) (fs : FileSystem) (name : Nat → UInt8)
    (size : BitVec 32) (fresh : Fresh) (hm : IsInt m.numBits) (hI : fs.Inv) :
    (h.AllocatesWithin m size ↔
      (m.numClear : Int) < divRoundUp size.toInt sectorSize ∨ size.toInt ≤ maxFileSize) ∧
    ((∃ r, fs.create name size fresh = .ok r) ↔
      ¬ fs.Room name size ∨ size.toInt ≤ maxFileSize) :=
  ⟨FileHeader.allocatesWithin_iff hm, create_returns_iff hI fresh⟩

/-- The largest file a header has room for, on an empty disk. -/
theorem header_suffices_largest :
    ∃ fs r, format (fun _ _ => 0) Volume.zeros = .ok fs ∧
      fs.create Volume.nameA 15872 Volume.zeros = .ok r ∧
      FileHeader.AllocatesWithin Volume.zeros.hdr (.new 64 fun _ => 0) 15872 := by
  obtain ⟨fs, hfs, hI, -⟩ := format_eq (fun _ _ => 0) Volume.zeros
  obtain ⟨hwithin, hreturns⟩ := header_suffices_iff Volume.zeros.hdr (.new 64 fun _ => 0) fs
    Volume.nameA 15872 Volume.zeros (by decide) hI
  have hfits : (15872 : BitVec 32).toInt ≤ maxFileSize := by decide
  obtain ⟨r, hr⟩ := hreturns.mpr (Or.inr hfits)
  exact ⟨fs, r, hfs, hr, hwithin.mpr (Or.inr hfits)⟩

/-- One byte more than a header has room for, on an empty disk. -/
theorem header_overrun :
    ∃ fs, format (fun _ _ => 0) Volume.zeros = .ok fs ∧ fs.Inv ∧
      fs.create Volume.nameA 15873 Volume.zeros = .error .undefined ∧
      ¬ FileHeader.AllocatesWithin Volume.zeros.hdr (.new 64 fun _ => 0) 15873 := by
  obtain ⟨fs, hfs, hI, hempty, hm⟩ := format_eq (fun _ _ => 0) Volume.zeros
  refine ⟨fs, hfs, hI, ?_, ?_⟩
  · have hroom : fs.Room Volume.nameA 15873 := room_empty hempty hm (by decide)
    rcases create_cases hI Volume.nameA 15873 Volume.zeros with
      ⟨-, hno⟩ | ⟨-, fs', s, ss, -, hC, -⟩ | ⟨-, -, herr⟩
    · exact absurd hroom hno
    · have hmem : (s : Int) ∈ fs'.files :=
        Inv.entry_mem (hC.entries.mem_iff.mpr List.mem_cons_self)
      have hle := (hC.inv.listed _ hmem).size_le
      rw [hC.size] at hle
      exact absurd hle (by decide)
    · exact herr
  · rw [FileHeader.allocatesWithin_iff (by decide)]
    decide +kernel

end FileSystem
end Nachos

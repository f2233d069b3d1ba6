import Nachos.Lib.Words
import Nachos.Machine.Disk

/-! File headers and open files (filehdr.cc, openfile.cc). A header has the size
of a sector and is stored as the bytes it has in memory. A file's data is read
and written by whole sectors: a write that begins or ends inside one reads it
back first. The calls of the synchronous disk are made one after the other
here, so each of them is a plain access to a sector. -/

namespace Nachos
open Lib

namespace Sector

/-- The sector as memory; only its first `sectorSize` bytes are ever looked at. -/
def mem (s : Sector) : Nat → UInt8 := fun i => s (Fin.ofNat sectorSize i)

def ofMem (m : Nat → UInt8) (pos : Nat) : Sector := fun i => m (pos + i)

end Sector

namespace Sectors

/-- `SynchDisk::ReadSector`. -/
def readSector (d : Sectors) (sectorNumber : Int) : Except Fault Sector :=
  if 0 ≤ sectorNumber ∧ sectorNumber < numSectors then .ok (d sectorNumber.toNat)
  else .error (.assertion .diskSector)

/-- `SynchDisk::WriteSector`. -/
def writeSector (d : Sectors) (sectorNumber : Int) (data : Sector) : Except Fault Sectors :=
  if 0 ≤ sectorNumber ∧ sectorNumber < numSectors then
    .ok (Function.update d sectorNumber.toNat data)
  else .error (.assertion .diskSector)

/-- The request of an idle disk that `ReadSector` waits for. -/
theorem readRequest_idle (d : Sectors) (sectorNumber : Int) :
    Disk.readRequest ⟨d, false⟩ sectorNumber =
      (d.readSector sectorNumber).map fun data => (data, ⟨d, true⟩) := by
  unfold Disk.readRequest Disk.request readSector
  by_cases hn : 0 ≤ sectorNumber ∧ sectorNumber < numSectors
  · simp only [Bool.false_eq_true, if_false, if_pos hn, Except.map, id_eq, Function.update_eq_self]
  · simp only [Bool.false_eq_true, if_false, if_neg hn, Except.map]

/-- The request of an idle disk that `WriteSector` waits for. -/
theorem writeRequest_idle (d : Sectors) (sectorNumber : Int) (data : Sector) :
    Disk.writeRequest ⟨d, false⟩ sectorNumber data =
      (d.writeSector sectorNumber data).map fun d' => (data, ⟨d', true⟩) := by
  unfold Disk.writeRequest Disk.request writeSector
  by_cases hn : 0 ≤ sectorNumber ∧ sectorNumber < numSectors
  · simp only [Bool.false_eq_true, if_false, if_pos hn, Except.map]
  · simp only [Bool.false_eq_true, if_false, if_neg hn, Except.map]

end Sectors

/-! ## File headers -/

abbrev numDirect : Nat := 62
abbrev maxFileSize : Nat := 15872

structure FileHeader where
  numBytes : BitVec 32
  numSectors : BitVec 32
  dataSectors : Fin numDirect → BitVec 32

namespace FileHeader

def word (h : FileHeader) : Nat → BitVec 32
  | 0 => h.numBytes
  | 1 => h.numSectors
  | i + 2 => if hi : i < numDirect then h.dataSectors ⟨i, hi⟩ else 0

/-- `(char *)this`. -/
def mem (h : FileHeader) : Nat → UInt8 := wordsMem h.word

def ofMem (m : Nat → UInt8) : FileHeader :=
  ⟨wordOf m 0, wordOf m 4, fun i => wordOf m (8 + 4 * i)⟩

/-- `FileHeader::FetchFrom`. -/
def fetchFrom (d : Sectors) (sector : Int) : Except Fault FileHeader := do
  let data ← d.readSector sector
  .ok (ofMem data.mem)

/-- `FileHeader::WriteBack`. -/
def writeBack (h : FileHeader) (d : Sectors) (sector : Int) : Except Fault Sectors :=
  d.writeSector sector (.ofMem h.mem 0)

/-- `dataSectors[i]`, where the array has it. -/
def sector (h : FileHeader) (i : Nat) : Int :=
  if hi : i < numDirect then (h.dataSectors ⟨i, hi⟩).toInt else -1

/-- `FileHeader::ByteToSector`. -/
def byteToSector (h : FileHeader) (offset : Int) : Except Fault Int :=
  let i := offset.tdiv sectorSize
  if 0 ≤ i ∧ i < numDirect then .ok (h.sector i.toNat) else .error .undefined

/-- `FileHeader::FileLength`. -/
def fileLength (h : FileHeader) : Int := h.numBytes.toInt

/-- The loop of `ReadAt`, from sector `i` of the file on. -/
def readSectors (h : FileHeader) (d : Sectors) (i : Int) : Nat → Except Fault (List UInt8)
  | 0 => .ok []
  | n + 1 => do
    let sector ← h.byteToSector (i * sectorSize)
    let data ← d.readSector sector
    let rest ← h.readSectors d (i + 1) n
    .ok (bytesAt data.mem 0 sectorSize ++ rest)

/-- The loop of `WriteAt`, from sector `i` of the file and byte `pos` of the
buffer on. -/
def writeSectors (h : FileHeader) (d : Sectors) (buf : Nat → UInt8) (pos : Nat) (i : Int) :
    Nat → Except Fault Sectors
  | 0 => .ok d
  | n + 1 => do
    let sector ← h.byteToSector (i * sectorSize)
    let d ← d.writeSector sector (.ofMem buf pos)
    h.writeSectors d buf (pos + sectorSize) (i + 1) n

end FileHeader

/-! ## Open files -/

structure OpenFile where
  hdr : FileHeader
  seekPosition : Int

namespace OpenFile

/-- The constructor. -/
def new (d : Sectors) (sector : Int) : Except Fault OpenFile := do
  let hdr ← FileHeader.fetchFrom d sector
  .ok ⟨hdr, 0⟩

/-- The check at the beginning of `ReadAt` and `WriteAt`: nothing to transfer, or
the number of bytes cut at the end of the file. -/
def clamp (f : OpenFile) (numBytes position : Int) : Except Fault (Option Int) :=
  if numBytes ≤ 0 ∨ f.hdr.fileLength ≤ position then .ok none
  else do
    let stop ← cInt (position + numBytes)
    if f.hdr.fileLength < stop then do
      let rest ← cInt (f.hdr.fileLength - position)
      .ok (some rest)
    else .ok (some numBytes)

/-- `OpenFile::ReadAt`; what it returns is the number of bytes it has copied. -/
def readAt (f : OpenFile) (d : Sectors) (numBytes position : Int) : Except Fault (List UInt8) := do
  match ← f.clamp numBytes position with
  | none => .ok []
  | some numBytes =>
    let firstSector := position.tdiv sectorSize
    let lastSector := (position + numBytes - 1).tdiv sectorSize
    let numSectors := 1 + lastSector - firstSector
    let buf ← f.hdr.readSectors d firstSector numSectors.toNat
    let offset := position - firstSector * sectorSize
    if 0 ≤ offset ∧ offset + numBytes ≤ numSectors * sectorSize then
      .ok ((buf.drop offset.toNat).take numBytes.toNat)
    else .error .undefined

/-- The buffer of `WriteAt` after the first and the last sector, where they are
modified in part only, have been read in. `fresh` is what the new buffer holds. -/
def readPartial (f : OpenFile) (d : Sectors) (firstSector lastSector : Int)
    (firstAligned lastAligned : Bool) (fresh : Nat → UInt8) : Except Fault (Nat → UInt8) := do
  let buf ←
    if firstAligned then .ok fresh
    else do
      let bytes ← f.readAt d sectorSize (firstSector * sectorSize)
      .ok (overlay fresh 0 bytes)
  if ¬ lastAligned ∧ (firstSector ≠ lastSector ∨ firstAligned) then do
    let bytes ← f.readAt d sectorSize (lastSector * sectorSize)
    .ok (overlay buf ((lastSector - firstSector) * sectorSize).toNat bytes)
  else .ok buf

/-- `OpenFile::WriteAt`, of the bytes at `src`. -/
def writeAt (f : OpenFile) (d : Sectors) (src : Nat → UInt8) (numBytes position : Int)
    (fresh : Nat → UInt8) : Except Fault (Int × Sectors) := do
  match ← f.clamp numBytes position with
  | none => .ok (0, d)
  | some numBytes =>
    let firstSector := position.tdiv sectorSize
    let lastSector := (position + numBytes - 1).tdiv sectorSize
    let numSectors := 1 + lastSector - firstSector
    let firstAligned := position = firstSector * sectorSize
    let lastAligned := position + numBytes = (lastSector + 1) * sectorSize
    let buf ← f.readPartial d firstSector lastSector firstAligned lastAligned fresh
    let offset := position - firstSector * sectorSize
    if 0 ≤ offset ∧ offset + numBytes ≤ numSectors * sectorSize then do
      let buf := overlay buf offset.toNat (bytesAt src 0 numBytes.toNat)
      let d ← f.hdr.writeSectors d buf 0 firstSector numSectors.toNat
      .ok (numBytes, d)
    else .error .undefined

/-- `OpenFile::Read`. -/
def read (f : OpenFile) (d : Sectors) (numBytes : Int) :
    Except Fault (List UInt8 × OpenFile) := do
  let bytes ← f.readAt d numBytes f.seekPosition
  let seekPosition ← cInt (f.seekPosition + bytes.length)
  .ok (bytes, { f with seekPosition })

/-- `OpenFile::Write`. -/
def write (f : OpenFile) (d : Sectors) (src : Nat → UInt8) (numBytes : Int)
    (fresh : Nat → UInt8) : Except Fault (Int × OpenFile × Sectors) := do
  let (result, d) ← f.writeAt d src numBytes f.seekPosition fresh
  let seekPosition ← cInt (f.seekPosition + result)
  .ok (result, { f with seekPosition }, d)

end OpenFile
end Nachos

import Nachos.Filesys.Allocate
import Nachos.Filesys.Directory

/-! The file system (filesys.cc). The free map and the directory are files of
their own, with their headers in the sectors 0 and 1, and stay open. Every
operation fetches them into fresh memory, changes the copies and, if it
succeeds, writes them back. A handle keeps the copy of the header that `Open`
has made; `Remove` frees the sectors at once, whether or not handles on the file
are left. -/

namespace Nachos
open Lib

abbrev freeMapSector : Int := 0
abbrev directorySector : Int := 1
abbrev freeMapFileSize : BitVec 32 := 128
abbrev numDirEntries : Nat := 10
abbrev directoryFileSize : BitVec 32 := 200

/-- What the memory that an operation allocates holds before it is written: the
words of the bitmap, the table of the directory, the headers, and the buffers of
the two calls of `WriteAt`. -/
structure Fresh where
  map : Nat → BitVec 32
  table : Nat → UInt8
  hdr : FileHeader
  dirHdr : FileHeader
  mapBuf : Nat → UInt8
  dirBuf : Nat → UInt8

/-- The disk, and the two files that are left open while Nachos is running. -/
structure FileSystem where
  sectors : Sectors
  freeMapFile : OpenFile
  directoryFile : OpenFile

namespace FileSystem

/-- The constructor, with `format`. -/
def format (d : Sectors) (fresh : Fresh) : Except Fault FileSystem := do
  let directory := Directory.new numDirEntries fresh.table
  let freeMap ← (BitMap.new numSectors fresh.map).mark freeMapSector
  let freeMap ← freeMap.mark directorySector
  match ← fresh.hdr.allocate freeMap freeMapFileSize with
  | (false, _, _) => .error (.assertion .allocate)
  | (true, mapHdr, freeMap) =>
    match ← fresh.dirHdr.allocate freeMap directoryFileSize with
    | (false, _, _) => .error (.assertion .allocate)
    | (true, dirHdr, freeMap) => do
      let d ← mapHdr.writeBack d freeMapSector
      let d ← dirHdr.writeBack d directorySector
      let freeMapFile ← OpenFile.new d freeMapSector
      let directoryFile ← OpenFile.new d directorySector
      let d ← freeMap.writeBack d freeMapFile fresh.mapBuf
      let d ← directory.writeBack d directoryFile fresh.dirBuf
      .ok ⟨d, freeMapFile, directoryFile⟩

/-- The constructor, without `format`. -/
def mount (d : Sectors) : Except Fault FileSystem := do
  let freeMapFile ← OpenFile.new d freeMapSector
  let directoryFile ← OpenFile.new d directorySector
  .ok ⟨d, freeMapFile, directoryFile⟩

/-- The directory, as every operation fetches it first. -/
def directory (fs : FileSystem) (fresh : Fresh) : Except Fault Directory :=
  (Directory.new numDirEntries fresh.table).fetchFrom fs.sectors fs.directoryFile

def freeMap (fs : FileSystem) (fresh : Fresh) : Except Fault BitMap :=
  (BitMap.new numSectors fresh.map).fetchFrom fs.sectors fs.freeMapFile

/-- `FileSystem::Create`. -/
def create (fs : FileSystem) (name : Nat → UInt8) (initialSize : BitVec 32) (fresh : Fresh) :
    Except Fault (Bool × FileSystem) := do
  let directory ← fs.directory fresh
  if directory.find name ≠ -1 then .ok (false, fs)
  else do
    let freeMap ← fs.freeMap fresh
    let (sector, freeMap) := freeMap.find
    if sector = -1 then .ok (false, fs)
    else
      match directory.add name sector with
      | (false, _) => .ok (false, fs)
      | (true, directory) => do
        match ← fresh.hdr.allocate freeMap initialSize with
        | (false, _, _) => .ok (false, fs)
        | (true, hdr, freeMap) => do
          let d ← hdr.writeBack fs.sectors sector
          let d ← directory.writeBack d fs.directoryFile fresh.dirBuf
          let d ← freeMap.writeBack d fs.freeMapFile fresh.mapBuf
          .ok (true, { fs with sectors := d })

/-- `FileSystem::Open`; `none` is NULL. -/
def openFile (fs : FileSystem) (name : Nat → UInt8) (fresh : Fresh) :
    Except Fault (Option OpenFile) := do
  let directory ← fs.directory fresh
  if 0 ≤ directory.find name then do
    let file ← OpenFile.new fs.sectors (directory.find name)
    .ok (some file)
  else .ok none

/-- `FileSystem::Remove`. -/
def remove (fs : FileSystem) (name : Nat → UInt8) (fresh : Fresh) :
    Except Fault (Bool × FileSystem) := do
  let directory ← fs.directory fresh
  let sector := directory.find name
  if sector = -1 then .ok (false, fs)
  else do
    let fileHdr ← FileHeader.fetchFrom fs.sectors sector
    let freeMap ← fs.freeMap fresh
    let freeMap ← fileHdr.deallocate freeMap
    let freeMap ← freeMap.clear sector
    let d ← freeMap.writeBack fs.sectors fs.freeMapFile fresh.mapBuf
    let d ← (directory.remove name).2.writeBack d fs.directoryFile fresh.dirBuf
    .ok (true, { fs with sectors := d })

end FileSystem

/-! ## Runs -/

/-- An open file, with the header sector it was opened at; `live` as long as the
file has not been removed since. The last two are not kept by the code. -/
structure Handle where
  file : OpenFile
  sector : Int
  live : Bool

/-- The handle after the file with its header in `sector` has been removed. -/
def Handle.drop (sector : Int) (h : Handle) : Handle :=
  { h with live := h.live && h.sector != sector }

structure Volume where
  fs : FileSystem
  handles : List Handle

namespace Volume

inductive Event
  | create (name : Nat → UInt8) (initialSize : BitVec 32) (fresh : Fresh)
  | openFile (name : Nat → UInt8) (fresh : Fresh)
  | remove (name : Nat → UInt8) (fresh : Fresh)
  | writeAt (handle : Nat) (src : Nat → UInt8) (numBytes position : Int) (fresh : Nat → UInt8)

def step (v : Volume) : Event → Except Fault Volume
  | .create name initialSize fresh => do
    let (_, fs) ← v.fs.create name initialSize fresh
    .ok { v with fs }
  | .openFile name fresh => do
    let directory ← v.fs.directory fresh
    match ← v.fs.openFile name fresh with
    | none => .ok v
    | some file => .ok { v with handles := v.handles ++ [⟨file, directory.find name, true⟩] }
  | .remove name fresh => do
    let directory ← v.fs.directory fresh
    let (removed, fs) ← v.fs.remove name fresh
    if removed then .ok ⟨fs, v.handles.map (Handle.drop (directory.find name))⟩
    else .ok { v with fs }
  | .writeAt handle src numBytes position fresh =>
    match v.handles[handle]? with
    | none => .error .disabled
    | some h => do
      let (_, d) ← h.file.writeAt v.fs.sectors src numBytes position fresh
      .ok { v with fs := { v.fs with sectors := d } }

end Volume
end Nachos

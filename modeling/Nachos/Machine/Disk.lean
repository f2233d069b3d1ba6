import Mathlib.Logic.Function.Basic
import Nachos.Threads.Utility

/-! The simulated disk (disk.cc). A request is carried out on the host file at
once; what comes later is the interrupt that tells the kernel so. When it comes
depends on the position of the head, which is left to the model of the disk's
latency: here it may come at any time. -/

namespace Nachos

abbrev sectorSize : Nat := 256
abbrev numSectors : Nat := 1024

abbrev Sector := Fin sectorSize → UInt8

/-- The host file behind the disk, by sectors. Only those below `numSectors`
are ever reached. -/
abbrev Sectors := Nat → Sector

structure Disk where
  sectors : Sectors
  active : Bool

namespace Disk

/-- A request: `f` is what the transfer makes of the sector, and leaves in the
buffer. -/
def request (d : Disk) (sectorNumber : Int) (f : Sector → Sector) : Except Fault (Sector × Disk) :=
  if d.active then .error (.assertion .diskActive)
  else if 0 ≤ sectorNumber ∧ sectorNumber < numSectors then
    let data := f (d.sectors sectorNumber.toNat)
    .ok (data, { sectors := Function.update d.sectors sectorNumber.toNat data, active := true })
  else .error (.assertion .diskSector)

/-- `Disk::ReadRequest`. -/
def readRequest (d : Disk) (sectorNumber : Int) : Except Fault (Sector × Disk) :=
  d.request sectorNumber id

/-- `Disk::WriteRequest`. -/
def writeRequest (d : Disk) (sectorNumber : Int) (data : Sector) : Except Fault (Sector × Disk) :=
  d.request sectorNumber fun _ => data

/-- `Disk::HandleInterrupt`, up to the call of the handler. -/
def handleInterrupt (d : Disk) : Disk := { d with active := false }

end Disk
end Nachos

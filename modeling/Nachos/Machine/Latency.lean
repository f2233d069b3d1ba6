import Nachos.Lib.Periodic
import Nachos.Lib.Run
import Nachos.Machine.Disk

/-! How long a disk request takes (disk.h, disk.cc, stats.h). The disk turns by one
sector in `rotationTime` ticks, whatever the head does, and the head moves by one
track in `seekTime` ticks. The disk keeps what has passed under the head since it
came to its track, the track buffer. The simulator does not follow the disk: it
computes when a request is done, from the clock, the sector of the last request and
the time since which the head is on its track. -/

namespace Nachos
open Lib

def rotationTime : Int := 500
def seekTime : Int := 500
def sectorsPerTrack : Int := 32

theorem rotationTime_pos : 0 < rotationTime := by decide
theorem sectorsPerTrack_pos : 0 < sectorsPerTrack := by decide

/-- The disk and the clock. `due` is the time that the interrupt of the last request
is scheduled for; `requests` records the times and the sectors of the requests. -/
structure DiskHead where
  disk : Disk
  lastSector : Int
  bufferInit : Int
  totalTicks : Int
  due : Int
  requests : List (Int × Int)

namespace DiskHead

/-- `Disk::Disk`. -/
def new (sectors : Sectors) : DiskHead where
  disk := ⟨sectors, false⟩
  lastSector := 0
  bufferInit := 0
  totalTicks := 0
  due := 0
  requests := []

/-- `TimeToSeek`: the time of the seek, and the time from its end to the next
boundary between sectors. -/
def timeToSeek (s : DiskHead) (newSector : Int) : Except Fault (Int × Int) := do
  let newTrack := newSector.tdiv sectorsPerTrack
  let oldTrack := s.lastSector.tdiv sectorsPerTrack
  let seek ← cInt ((newTrack - oldTrack).natAbs * seekTime)
  let arrival ← cInt (s.totalTicks + seek)
  let overshoot := arrival.tmod rotationTime
  .ok (seek, if 0 < overshoot then rotationTime - overshoot else 0)

def moduloDiff (target origin : Int) : Int :=
  let toOffset := target.tmod sectorsPerTrack
  let fromOffset := origin.tmod sectorsPerTrack
  (toOffset - fromOffset + sectorsPerTrack).tmod sectorsPerTrack

/-- The test for the track buffer in `ComputeLatency`. -/
def inTrackBuffer (s : DiskHead) (newSector : Int) (writing : Bool) (seek timeAfter : Int) :
    Except Fault Bool :=
  if writing = false ∧ seek = 0 then do
    let elapsed ← cInt (timeAfter - s.bufferInit)
    .ok (decide (elapsed.tdiv rotationTime >
      moduloDiff newSector (s.bufferInit.tdiv rotationTime)))
  else .ok false

def computeLatency (s : DiskHead) (newSector : Int) (writing : Bool) : Except Fault Int := do
  let (seek, rotation) ← s.timeToSeek newSector
  let timeAfter ← cInt (s.totalTicks + seek + rotation)
  let buffered ← s.inTrackBuffer newSector writing seek timeAfter
  if buffered then .ok rotationTime
  else
    cInt (seek + (rotation + moduloDiff newSector (timeAfter.tdiv rotationTime) * rotationTime) +
      rotationTime)

def updateLast (s : DiskHead) (newSector : Int) : Except Fault DiskHead := do
  let (seek, rotate) ← s.timeToSeek newSector
  if seek ≠ 0 then do
    let bufferInit ← cInt (s.totalTicks + seek + rotate)
    .ok { s with bufferInit := bufferInit, lastSector := newSector }
  else .ok { s with lastSector := newSector }

def transfer (s : DiskHead) (sectorNumber : Int) : Option Sector → Except Fault (Sector × Disk)
  | none => s.disk.readRequest sectorNumber
  | some data => s.disk.writeRequest sectorNumber data

/-- `ReadRequest` and, with what is to be written, `WriteRequest`. -/
def request (s : DiskHead) (sectorNumber : Int) (data : Option Sector) :
    Except Fault DiskHead := do
  let ticks ← s.computeLatency sectorNumber data.isSome
  let (_, disk) ← s.transfer sectorNumber data
  let s ← { s with disk := disk }.updateLast sectorNumber
  let due ← cInt (s.totalTicks + ticks)
  if 0 < ticks then
    .ok { s with due := due, requests := s.requests ++ [(s.totalTicks, sectorNumber)] }
  else .error (.assertion .schedule)

/-- Time passes; the interrupt of a request comes, not before it is due; a request is
made. -/
inductive Event
  | pass (totalTicks : Int)
  | handleInterrupt
  | request (sectorNumber : Int) (data : Option Sector)

def step (s : DiskHead) : Event → Except Fault DiskHead
  | .pass totalTicks =>
    if s.totalTicks ≤ totalTicks then do
      let totalTicks ← cInt totalTicks
      .ok { s with totalTicks := totalTicks }
    else .error .disabled
  | .handleInterrupt =>
    if s.disk.active ∧ s.due ≤ s.totalTicks then .ok { s with disk := s.disk.handleInterrupt }
    else .error .disabled
  | .request sectorNumber data => s.request sectorNumber data

/-! ## The rotating disk -/

def track (sector : Int) : Int := sector / sectorsPerTrack

/-- The sector under the head at time `t`, counted in its track. -/
def sectorAt (t : Int) : Int := t / rotationTime % sectorsPerTrack

/-- When the head is on the track of `newSector`, and when the next sector begins
there. -/
def seekEnd (s : DiskHead) (newSector : Int) : Int :=
  s.totalTicks + (track newSector - track s.lastSector).natAbs * seekTime
def boundary (s : DiskHead) (newSector : Int) : Int :=
  firstFrom rotationTime 0 (s.seekEnd newSector)

/-- At `start` the head is on the track of `newSector`, and the sector begins to pass
under it for the first time. -/
structure FirstPass (s : DiskHead) (newSector start : Int) : Prop where
  boundary : start % rotationTime = 0
  settled : s.seekEnd newSector ≤ start
  under : sectorAt start = newSector % sectorsPerTrack
  first : ∀ t, t % rotationTime = 0 → s.seekEnd newSector ≤ t →
    sectorAt t = newSector % sectorsPerTrack → start ≤ t

/-- The track buffer has the sector: the head has been on this track since
`bufferInit`, and since then the whole sector has passed under it, or will have at
the end of the slot that the clock is in. -/
structure Buffered (s : DiskHead) (newSector : Int) : Prop where
  sameTrack : track newSector = track s.lastSector
  settled : s.bufferInit ≤ s.totalTicks
  stays : ∀ r ∈ s.requests, s.bufferInit ≤ r.1 → track r.2 = track newSector
  passed : ∃ t, t % rotationTime = 0 ∧ sectorAt t = newSector % sectorsPerTrack ∧
    s.bufferInit ≤ t ∧
    ∀ slotEnd, slotEnd % rotationTime = 0 → s.totalTicks ≤ slotEnd → t + rotationTime ≤ slotEnd

/-! ## The arithmetic -/

def ValidSector (n : Int) : Prop := 0 ≤ n ∧ n < numSectors

theorem moduloDiff_eq {target origin : Int} (ht : 0 ≤ target) (ho : 0 ≤ origin) :
    origin + moduloDiff target origin = firstFrom sectorsPerTrack target origin := by
  unfold moduloDiff firstFrom sectorsPerTrack
  dsimp only
  rw [Int.tmod_eq_emod_of_nonneg ht, Int.tmod_eq_emod_of_nonneg ho,
    Int.tmod_eq_emod_of_nonneg (by omega)]
  omega

section Arithmetic
variable {s : DiskHead} {newSector : Int}

theorem le_seekEnd (s : DiskHead) (newSector : Int) : s.totalTicks ≤ s.seekEnd newSector := by
  unfold seekEnd seekTime
  omega

theorem seekEnd_le_boundary (s : DiskHead) (newSector : Int) :
    s.seekEnd newSector ≤ s.boundary newSector := le_firstFrom rotationTime_pos

theorem boundary_emod (s : DiskHead) (newSector : Int) :
    s.boundary newSector % rotationTime = 0 := firstFrom_emod

theorem boundary_le {t : Int} (ht : t % rotationTime = 0) (hle : s.seekEnd newSector ≤ t) :
    s.boundary newSector ≤ t := firstFrom_le rotationTime_pos hle ht

theorem boundary_lt (s : DiskHead) (newSector : Int) :
    s.boundary newSector < s.seekEnd newSector + rotationTime := firstFrom_lt rotationTime_pos

theorem rotation_eq (h : 0 ≤ s.seekEnd newSector) :
    (if 0 < (s.seekEnd newSector).tmod rotationTime then
      rotationTime - (s.seekEnd newSector).tmod rotationTime else 0) =
      s.boundary newSector - s.seekEnd newSector := by
  rw [Int.tmod_eq_emod_of_nonneg h]
  unfold boundary firstFrom rotationTime
  split <;> omega

theorem timeToSeek_eq_ok (hclock : 0 ≤ s.totalTicks) (hlast : ValidSector s.lastSector)
    (hnew : ValidSector newSector) {r : Int × Int} :
    s.timeToSeek newSector = .ok r ↔ IsInt (s.seekEnd newSector) ∧
      r = (s.seekEnd newSector - s.totalTicks, s.boundary newSector - s.seekEnd newSector) := by
  have hseek : (s.seekEnd newSector - s.totalTicks) =
      (track newSector - track s.lastSector).natAbs * seekTime := by
    unfold seekEnd
    omega
  have hrange : IsInt (s.seekEnd newSector - s.totalTicks) := by
    rw [hseek]
    unfold ValidSector numSectors at *
    unfold IsInt track sectorsPerTrack seekTime
    omega
  have hend : 0 ≤ s.seekEnd newSector := Int.le_trans hclock (s.le_seekEnd newSector)
  unfold timeToSeek
  dsimp only
  rw [Int.tdiv_eq_ediv_of_nonneg hnew.1, Int.tdiv_eq_ediv_of_nonneg hlast.1]
  change (cInt ((track newSector - track s.lastSector).natAbs * seekTime) >>= _) = _ ↔ _
  rw [← hseek, cInt_of_isInt hrange, ok_bind, add_sub_cancel]
  constructor
  · intro h
    obtain ⟨arrival, harrival, h⟩ := bind_eq_ok.mp h
    obtain ⟨hint, rfl⟩ := cInt_eq_ok.mp harrival
    rw [rotation_eq hend] at h
    exact ⟨hint, (Except.ok.inj h).symm⟩
  · intro ⟨hint, hr⟩
    rw [cInt_of_isInt hint, ok_bind, rotation_eq hend, hr]

/-- The first slot of the sector at or behind the boundary. -/
theorem firstPass_of_slot (s : DiskHead) (newSector : Int) :
    FirstPass s newSector
      (firstFrom sectorsPerTrack newSector (s.boundary newSector / rotationTime) *
        rotationTime) := by
  have hle : s.boundary newSector / rotationTime ≤
      firstFrom sectorsPerTrack newSector (s.boundary newSector / rotationTime) :=
    le_firstFrom sectorsPerTrack_pos
  have hmod : firstFrom sectorsPerTrack newSector (s.boundary newSector / rotationTime) %
      sectorsPerTrack = newSector % sectorsPerTrack := firstFrom_emod
  have hend := s.seekEnd_le_boundary newSector
  have hboundary := s.boundary_emod newSector
  refine ⟨Int.mul_emod_left _ _, ?_, ?_, fun t ht hsettled hunder => ?_⟩
  · unfold rotationTime at *
    omega
  · unfold sectorAt
    rw [Int.mul_ediv_cancel _ (ne_of_gt rotationTime_pos), hmod]
  · have hslot : s.boundary newSector / rotationTime ≤ t / rotationTime :=
      Int.ediv_le_ediv rotationTime_pos (boundary_le ht hsettled)
    have hfirst : firstFrom sectorsPerTrack newSector (s.boundary newSector / rotationTime) ≤
      t / rotationTime := firstFrom_le sectorsPerTrack_pos hslot hunder
    unfold rotationTime at *
    omega

theorem seekEnd_eq_iff :
    s.seekEnd newSector - s.totalTicks = 0 ↔ track newSector = track s.lastSector := by
  unfold seekEnd seekTime
  omega

/-- The sector has passed since `bufferInit`. -/
def UsesBuffer (s : DiskHead) (newSector : Int) (writing : Bool) : Prop :=
  (writing = false ∧ track newSector = track s.lastSector) ∧
    firstFrom sectorsPerTrack newSector (s.bufferInit / rotationTime) <
      s.boundary newSector / rotationTime

instance (s : DiskHead) (newSector : Int) (writing : Bool) :
    Decidable (s.UsesBuffer newSector writing) := inferInstanceAs (Decidable (_ ∧ _))

/-- What `ComputeLatency` returns. -/
def latency (s : DiskHead) (newSector : Int) (writing : Bool) : Int :=
  if s.UsesBuffer newSector writing then rotationTime
  else firstFrom sectorsPerTrack newSector (s.boundary newSector / rotationTime) * rotationTime -
    s.totalTicks + rotationTime

end Arithmetic

/-- What holds between requests and during them. -/
structure Inv (s : DiskHead) : Prop where
  clock : 0 ≤ s.totalTicks
  last : ValidSector s.lastSector
  aligned : s.bufferInit % rotationTime = 0
  start : 0 ≤ s.bufferInit
  idle : s.disk.active = false → s.bufferInit ≤ s.totalTicks
  busy : s.disk.active = true → s.bufferInit ≤ s.due
  past : ∀ r ∈ s.requests, r.1 ≤ s.totalTicks
  stays : ∀ r ∈ s.requests, s.bufferInit ≤ r.1 → track r.2 = track s.lastSector

section Inv
variable {s s' : DiskHead} {newSector : Int} {writing : Bool}

theorem Inv.boundary_nonneg (hi : s.Inv) (newSector : Int) : 0 ≤ s.boundary newSector :=
  Int.le_trans hi.clock
    (Int.le_trans (s.le_seekEnd newSector) (s.seekEnd_le_boundary newSector))

theorem inTrackBuffer_eq (hi : s.Inv) (hactive : s.disk.active = false)
    (hnew : ValidSector newSector) (hint : IsInt (s.boundary newSector)) :
    s.inTrackBuffer newSector writing (s.seekEnd newSector - s.totalTicks)
      (s.boundary newSector) = .ok (decide (s.UsesBuffer newSector writing)) := by
  have hsame : writing = false ∧ s.seekEnd newSector - s.totalTicks = 0 ↔
      writing = false ∧ track newSector = track s.lastSector :=
    and_congr_right' seekEnd_eq_iff
  unfold inTrackBuffer
  by_cases hread : writing = false ∧ track newSector = track s.lastSector
  · have hlater : s.bufferInit ≤ s.boundary newSector := Int.le_trans (hi.idle hactive)
      (Int.le_trans (s.le_seekEnd newSector) (s.seekEnd_le_boundary newSector))
    have helapsed : IsInt (s.boundary newSector - s.bufferInit) := by
      have hstart := hi.start
      unfold IsInt at hint ⊢
      omega
    rw [if_pos (hsame.mpr hread), cInt_of_isInt helapsed, ok_bind,
      Int.tdiv_eq_ediv_of_nonneg (by omega), Int.tdiv_eq_ediv_of_nonneg hi.start]
    have hslot : 0 ≤ s.bufferInit / rotationTime := Int.ediv_nonneg hi.start rotationTime_pos.le
    have hdiff := moduloDiff_eq hnew.1 hslot
    have haligned := hi.aligned
    have hboundary := s.boundary_emod newSector
    refine congrArg _ (decide_eq_decide.mpr ?_)
    rw [UsesBuffer, and_iff_right hread]
    unfold rotationTime at *
    omega
  · have huses : ¬ s.UsesBuffer newSector writing := fun h => hread h.1
    rw [if_neg fun h => hread (hsame.mp h), decide_eq_false huses]

/-- The slot of the sector is not before the boundary, and less than a turn behind. -/
theorem slot_bounds (s : DiskHead) (newSector : Int) :
    s.boundary newSector ≤
      firstFrom sectorsPerTrack newSector (s.boundary newSector / rotationTime) * rotationTime ∧
    firstFrom sectorsPerTrack newSector (s.boundary newSector / rotationTime) * rotationTime <
      s.boundary newSector + sectorsPerTrack * rotationTime := by
  have hle : s.boundary newSector / rotationTime ≤
      firstFrom sectorsPerTrack newSector (s.boundary newSector / rotationTime) :=
    le_firstFrom sectorsPerTrack_pos
  have hlt : firstFrom sectorsPerTrack newSector (s.boundary newSector / rotationTime) <
      s.boundary newSector / rotationTime + sectorsPerTrack := firstFrom_lt sectorsPerTrack_pos
  have hboundary := s.boundary_emod newSector
  unfold rotationTime sectorsPerTrack at *
  omega

theorem rotationTime_le_latency (s : DiskHead) (newSector : Int) (writing : Bool) :
    rotationTime ≤ s.latency newSector writing := by
  have hslot := (s.slot_bounds newSector).1
  have hend := Int.le_trans (s.le_seekEnd newSector) (s.seekEnd_le_boundary newSector)
  unfold latency
  split <;> omega

theorem latency_isInt (hi : s.Inv) (hnew : ValidSector newSector) :
    IsInt (s.latency newSector writing) := by
  have hlow := s.rotationTime_le_latency newSector writing
  have hslot := (s.slot_bounds newSector).2
  have hboundary := s.boundary_lt newSector
  have hseek : s.seekEnd newSector < s.totalTicks + 32 * seekTime := by
    have hlast := hi.last
    unfold ValidSector numSectors at hnew hlast
    unfold seekEnd track sectorsPerTrack seekTime
    omega
  have hhigh : s.latency newSector writing < 100000 := by
    unfold latency
    unfold rotationTime sectorsPerTrack seekTime at *
    split <;> omega
  unfold IsInt
  unfold rotationTime at hlow
  omega

/-- The sum that `ComputeLatency` returns without the track buffer. -/
theorem unbuffered_eq (hi : s.Inv) (hnew : ValidSector newSector) :
    s.seekEnd newSector - s.totalTicks + (s.boundary newSector - s.seekEnd newSector +
      moduloDiff newSector ((s.boundary newSector).tdiv rotationTime) * rotationTime) +
      rotationTime =
    firstFrom sectorsPerTrack newSector (s.boundary newSector / rotationTime) * rotationTime -
      s.totalTicks + rotationTime := by
  have hnonneg := hi.boundary_nonneg newSector
  have hdiff := moduloDiff_eq hnew.1
    (Int.ediv_nonneg hnonneg rotationTime_pos.le : 0 ≤ s.boundary newSector / rotationTime)
  have hboundary := s.boundary_emod newSector
  rw [Int.tdiv_eq_ediv_of_nonneg hnonneg]
  unfold rotationTime at *
  omega

theorem Inv.timeToSeek (hi : s.Inv) (hnew : ValidSector newSector)
    (hint : IsInt (s.boundary newSector)) : s.timeToSeek newSector =
      .ok (s.seekEnd newSector - s.totalTicks, s.boundary newSector - s.seekEnd newSector) := by
  have hclock := hi.clock
  have hend := s.le_seekEnd newSector
  have hle := s.seekEnd_le_boundary newSector
  refine (timeToSeek_eq_ok hi.clock hi.last hnew).mpr ⟨?_, rfl⟩
  unfold IsInt at *
  omega

theorem timeAfter_eq (s : DiskHead) (newSector : Int) :
    s.totalTicks + (s.seekEnd newSector - s.totalTicks) +
      (s.boundary newSector - s.seekEnd newSector) = s.boundary newSector := by
  omega

theorem computeLatency_of_isInt (hi : s.Inv) (hactive : s.disk.active = false)
    (hnew : ValidSector newSector) (hint : IsInt (s.boundary newSector)) :
    s.computeLatency newSector writing = .ok (s.latency newSector writing) := by
  have hrange : IsInt (s.latency newSector writing) := latency_isInt hi hnew
  unfold computeLatency
  rw [hi.timeToSeek hnew hint, ok_bind]
  dsimp only
  rw [timeAfter_eq, cInt_of_isInt hint, ok_bind, inTrackBuffer_eq hi hactive hnew hint, ok_bind,
    unbuffered_eq hi hnew]
  unfold latency at hrange ⊢
  by_cases huses : s.UsesBuffer newSector writing
  · rw [if_pos huses, if_pos (decide_eq_true huses)]
  · rw [if_neg huses] at hrange ⊢
    rw [if_neg (by simpa using huses), cInt_of_isInt hrange]

theorem computeLatency_eq_ok (hi : s.Inv) (hactive : s.disk.active = false)
    (hnew : ValidSector newSector) {ticks : Int}
    (h : s.computeLatency newSector writing = .ok ticks) :
    IsInt (s.boundary newSector) ∧ ticks = s.latency newSector writing := by
  obtain ⟨r, hseek, hrest⟩ := bind_eq_ok.mp h
  obtain ⟨-, rfl⟩ := (timeToSeek_eq_ok hi.clock hi.last hnew).mp hseek
  obtain ⟨timeAfter, htime, -⟩ := bind_eq_ok.mp hrest
  have hint := (cInt_eq_ok.mp htime).1
  rw [timeAfter_eq] at hint
  rw [computeLatency_of_isInt hi hactive hnew hint] at h
  exact ⟨hint, (Except.ok.inj h).symm⟩

theorem updateLast_eq_ok (hclock : 0 ≤ s.totalTicks) (hlast : ValidSector s.lastSector)
    (hnew : ValidSector newSector) (h : s.updateLast newSector = .ok s') : s' = { s with
      bufferInit := if track newSector = track s.lastSector then s.bufferInit
        else s.boundary newSector
      lastSector := newSector } := by
  obtain ⟨r, hseek, h⟩ := bind_eq_ok.mp h
  obtain ⟨-, rfl⟩ := (timeToSeek_eq_ok hclock hlast hnew).mp hseek
  dsimp only at h
  by_cases hsame : track newSector = track s.lastSector
  · rw [if_neg (not_not_intro (seekEnd_eq_iff.mpr hsame))] at h
    rw [if_pos hsame]
    exact (Except.ok.inj h).symm
  · rw [if_pos fun hzero => hsame (seekEnd_eq_iff.mp hzero)] at h
    obtain ⟨bufferInit, hinit, h⟩ := bind_eq_ok.mp h
    obtain ⟨-, rfl⟩ := cInt_eq_ok.mp hinit
    rw [timeAfter_eq] at h
    rw [if_neg hsame]
    exact (Except.ok.inj h).symm

theorem transfer_eq_ok {data : Option Sector} {x : Sector} {d : Disk}
    (h : s.transfer newSector data = .ok (x, d)) :
    s.disk.active = false ∧ ValidSector newSector ∧ d.active = true := by
  have hrequest : ∃ f, s.disk.request newSector f = .ok (x, d) := by
    cases data with
    | none => exact ⟨id, h⟩
    | some data => exact ⟨fun _ => data, h⟩
  obtain ⟨f, hrequest⟩ := hrequest
  obtain ⟨hactive, hrequest⟩ := ite_error_left_eq_ok.mp hrequest
  obtain ⟨hvalid, hrequest⟩ := ite_error_eq_ok.mp hrequest
  cases hrequest
  exact ⟨Bool.eq_false_iff.mpr hactive, hvalid, rfl⟩

/-- What a request leaves. -/
theorem request_eq_ok {data : Option Sector} (hi : s.Inv) (h : s.request newSector data = .ok s') :
    s.disk.active = false ∧ ValidSector newSector ∧ ∃ d : Disk, d.active = true ∧ s' =
      { disk := d
        lastSector := newSector
        bufferInit := if track newSector = track s.lastSector then s.bufferInit
          else s.boundary newSector
        totalTicks := s.totalTicks
        due := s.totalTicks + s.latency newSector data.isSome
        requests := s.requests ++ [(s.totalTicks, newSector)] } := by
  obtain ⟨ticks, hticks, hrest⟩ := bind_eq_ok.mp h
  obtain ⟨⟨x, d⟩, htransfer, hrest⟩ := bind_eq_ok.mp hrest
  obtain ⟨s1, hupdate, hrest⟩ := bind_eq_ok.mp hrest
  obtain ⟨due, hdue, hrest⟩ := bind_eq_ok.mp hrest
  obtain ⟨-, hreturn⟩ := ite_error_eq_ok.mp hrest
  obtain ⟨hactive, hvalid, hd⟩ := transfer_eq_ok htransfer
  obtain ⟨-, rfl⟩ := computeLatency_eq_ok hi hactive hvalid hticks
  obtain ⟨-, rfl⟩ := cInt_eq_ok.mp hdue
  have hlast := updateLast_eq_ok (s := { s with disk := d }) hi.clock hi.last hvalid hupdate
  refine ⟨hactive, hvalid, d, hd, ?_⟩
  rw [hlast] at hreturn
  exact (Except.ok.inj hreturn).symm

/-! ## Runs -/

theorem new_inv (sectors : Sectors) : (new sectors).Inv where
  clock := Int.le_refl _
  last := (⟨by decide, by decide⟩ : ValidSector 0)
  aligned := rfl
  start := Int.le_refl _
  idle := fun _ => Int.le_refl _
  busy := nofun
  past := nofun
  stays := nofun

theorem request_inv {data : Option Sector} (hi : s.Inv) (h : s.request newSector data = .ok s') :
    s'.Inv := by
  obtain ⟨hactive, hvalid, d, hd, rfl⟩ := request_eq_ok hi h
  have hpast : ∀ r ∈ s.requests ++ [(s.totalTicks, newSector)], r.1 ≤ s.totalTicks := by
    intro r hr
    rcases List.mem_append.mp hr with hr | hr
    · exact hi.past r hr
    · obtain rfl := List.mem_singleton.mp hr
      exact Int.le_refl _
  have hlate := s.rotationTime_le_latency newSector data.isSome
  have hrotation := rotationTime_pos
  have hidle := hi.idle hactive
  by_cases hsame : track newSector = track s.lastSector
  · rw [if_pos hsame]
    refine ⟨hi.clock, hvalid, hi.aligned, hi.start, fun h => ?_, fun _ => ?_, hpast, ?_⟩
    · exact Bool.noConfusion (hd.symm.trans h)
    · dsimp only
      omega
    · intro r hr hsince
      rcases List.mem_append.mp hr with hr | hr
      · exact (hi.stays r hr hsince).trans hsame.symm
      · obtain rfl := List.mem_singleton.mp hr
        rfl
  · rw [if_neg hsame]
    have hseek : s.totalTicks < s.seekEnd newSector := by
      have hne := mt seekEnd_eq_iff.mp hsame
      have hle := s.le_seekEnd newSector
      omega
    have hboundary := s.seekEnd_le_boundary newSector
    refine ⟨hi.clock, hvalid, s.boundary_emod newSector, hi.boundary_nonneg newSector,
      fun h => ?_, fun _ => ?_, hpast, fun r hr hsince => ?_⟩
    · exact Bool.noConfusion (hd.symm.trans h)
    · have hslot := (s.slot_bounds newSector).1
      have huses : ¬ s.UsesBuffer newSector data.isSome := fun h => hsame h.1.2
      dsimp only
      rw [latency, if_neg huses]
      omega
    · -- no request has been made since the head comes to the track
      have hbefore := hpast r hr
      dsimp only at hsince
      omega

theorem step_inv {e : Event} (hi : s.Inv) (h : s.step e = .ok s') : s'.Inv := by
  cases e with
  | pass totalTicks =>
    obtain ⟨hlater, h⟩ := ite_error_eq_ok.mp h
    obtain ⟨t, ht, h⟩ := bind_eq_ok.mp h
    obtain ⟨-, rfl⟩ := cInt_eq_ok.mp ht
    cases h
    exact { hi with
      clock := Int.le_trans hi.clock hlater
      idle := fun hactive => Int.le_trans (hi.idle hactive) hlater
      past := fun r hr => Int.le_trans (hi.past r hr) hlater }
  | handleInterrupt =>
    obtain ⟨⟨hactive, hdue⟩, h⟩ := ite_error_eq_ok.mp h
    cases h
    exact { hi with
      idle := fun _ => Int.le_trans (hi.busy hactive) hdue
      busy := nofun }
  | request sectorNumber data => exact request_inv hi h

/-- The track buffer is used for a sector that it has. -/
theorem UsesBuffer.buffered (h : s.UsesBuffer newSector writing) (hi : s.Inv)
    (hactive : s.disk.active = false) : s.Buffered newSector := by
  obtain ⟨⟨-, hsame⟩, hslot⟩ := h
  have hseek : s.seekEnd newSector = s.totalTicks := by
    have hzero := seekEnd_eq_iff.mpr hsame
    omega
  have hle : s.bufferInit / rotationTime ≤
      firstFrom sectorsPerTrack newSector (s.bufferInit / rotationTime) :=
    le_firstFrom sectorsPerTrack_pos
  have haligned := hi.aligned
  have hboundary := s.boundary_emod newSector
  refine ⟨hsame, hi.idle hactive, fun r hr hsince => (hi.stays r hr hsince).trans hsame.symm,
    firstFrom sectorsPerTrack newSector (s.bufferInit / rotationTime) * rotationTime,
    Int.mul_emod_left _ _, ?_, ?_, fun slotEnd haligned' hlater => ?_⟩
  · unfold sectorAt
    rw [Int.mul_ediv_cancel _ (ne_of_gt rotationTime_pos), firstFrom_emod]
  · unfold rotationTime at *
    omega
  · have hend : s.boundary newSector ≤ slotEnd := boundary_le haligned' (hseek ▸ hlater)
    unfold rotationTime at *
    omega

/-- Between the requests of any run, the latency of the next one is that of a
rotating disk. -/
theorem latency_of_rotating_disk {sectors : Sectors} {es : List Event}
    (run : Run step (new sectors) es s) (idle : s.disk.active = false)
    (valid : ValidSector newSector) (writing : Bool)
    (range : IsInt (s.seekEnd newSector + rotationTime)) :
    ∃ seek rotation buffered ticks, s.timeToSeek newSector = .ok (seek, rotation) ∧
      s.inTrackBuffer newSector writing seek (s.totalTicks + seek + rotation) = .ok buffered ∧
      s.computeLatency newSector writing = .ok ticks ∧
      rotationTime ≤ ticks ∧
      (buffered = false → s.FirstPass newSector (s.totalTicks + ticks - rotationTime)) ∧
      (buffered = true → writing = false ∧ s.Buffered newSector ∧
        ∃ unbuffered, s.computeLatency newSector true = .ok unbuffered ∧ ticks ≤ unbuffered) := by
  have hi : s.Inv := run.inv (fun _ _ _ hi h => step_inv hi h) (new_inv sectors)
  have hint : IsInt (s.boundary newSector) := by
    have hlow := hi.boundary_nonneg newSector
    have hhigh := s.boundary_lt newSector
    unfold IsInt at *
    omega
  refine ⟨_, _, _, _, hi.timeToSeek valid hint,
    (timeAfter_eq s newSector).symm ▸ inTrackBuffer_eq hi idle valid hint,
    computeLatency_of_isInt hi idle valid hint, s.rotationTime_le_latency newSector writing,
    fun hmiss => ?_, fun hhit => ?_⟩
  · have huses : ¬ s.UsesBuffer newSector writing := of_decide_eq_false hmiss
    have hstart : s.totalTicks + s.latency newSector writing - rotationTime =
        firstFrom sectorsPerTrack newSector (s.boundary newSector / rotationTime) *
          rotationTime := by
      rw [latency, if_neg huses]
      omega
    rw [hstart]
    exact s.firstPass_of_slot newSector
  · have huses : s.UsesBuffer newSector writing := of_decide_eq_true hhit
    refine ⟨huses.1.1, huses.buffered hi idle, _, computeLatency_of_isInt hi idle valid hint, ?_⟩
    have hleast := s.rotationTime_le_latency newSector true
    rwa [latency, if_pos huses]

end Inv

/-- A read on another track, and more than a turn of the disk behind it. -/
def readAndWait : List Event := [.request 70 none, .pass 20000, .handleInterrupt]

/-- The next sector is then in the track buffer. -/
theorem latency_of_rotating_disk_buffered : ∃ s, Run step (new fun _ _ => 0) readAndWait s ∧
    s.UsesBuffer 71 false ∧ ∃ ticks, s.computeLatency 71 false = .ok ticks ∧
      rotationTime ≤ ticks := by
  have hcontinues : continues step (new fun _ _ => 0) readAndWait (fun s =>
      decide ((s.disk.active = false ∧ IsInt (s.seekEnd 71 + rotationTime)) ∧
        s.UsesBuffer 71 false)) = true := by decide
  obtain ⟨s, run, hs⟩ := continues_iff.mp hcontinues
  obtain ⟨⟨hidle, hrange⟩, huses⟩ := of_decide_eq_true hs
  obtain ⟨_, _, _, ticks, _, _, hticks, hleast, _⟩ :=
    latency_of_rotating_disk run hidle ⟨by decide, by decide⟩ false hrange
  exact ⟨s, run, huses, ticks, hticks, hleast⟩

end DiskHead
end Nachos

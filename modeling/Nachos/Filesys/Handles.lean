import Nachos.Filesys.Allocation

/-! Runs of the file system with open handles. As long as files are written only
through handles on files that have not been removed since, every operation keeps
the account of the sectors, and a write stays inside its file. A handle that
outlives its file still writes to the sectors the file had, and these may by then
belong to another one. -/

namespace Nachos
open Lib

namespace FileSystem
variable {fs : FileSystem} {d : Sectors} {s : Int}

theorem Inv.files_nodup (hI : fs.Inv) : fs.files.Nodup := by
  refine (List.nodup_flatMap.mp hI.ledger.nodup).2.imp ?_
  intro f g hdisj heq
  exact hdisj (List.mem_cons_self ..) (heq ▸ List.mem_cons_self ..)

theorem Inv.entry_ne (hI : fs.Inv) (hs : s ∈ fs.entries) :
    freeMapSector ≠ s ∧ directorySector ≠ s := by
  have h₀ := List.nodup_cons.mp hI.files_nodup
  have h₁ := List.nodup_cons.mp h₀.2
  refine ⟨fun h => h₀.1 ?_, fun h => h₁.1 ?_⟩
  · rw [h]
    exact List.mem_cons_of_mem _ hs
  · rw [h]
    exact hs

/-- The sectors `d` differ from those of `fs` in the data of the file with its
header in `s` at most. -/
def WithinFile (fs : FileSystem) (s : Int) (d : Sectors) : Prop :=
  ∀ x : Nat, (x : Int) ∉ (headerAt fs.sectors s).listed → d x = fs.sectors x

namespace WithinFile

theorem header (hI : fs.Inv) (hs : s ∈ fs.files) (hw : fs.WithinFile s d) {f : Int}
    (hf : f ∈ fs.files) : headerAt d f = headerAt fs.sectors f := by
  refine headerAt_congr (hw _ ?_)
  rw [Int.toNat_of_nonneg (hI.bound hf).1]
  exact hI.not_listed hf hs

theorem byte (hI : fs.Inv) (hs : s ∈ fs.files) (hw : fs.WithinFile s d) {f : Int}
    (hf : f ∈ fs.files) (hne : f ≠ s) {j : Nat} (hj : j < (headerAt fs.sectors f).length) :
    (headerAt fs.sectors f).byte d j = (headerAt fs.sectors f).byte fs.sectors j := by
  refine byte_congr (hI.listed f hf) (fun x hx => hw _ ?_) hj
  rw [Int.toNat_of_nonneg (hI.listed_bound hf hx).1]
  exact hI.listed_disjoint hf hs hne hx

/-- Another file has the contents it had. -/
theorem contents (hI : fs.Inv) (hs : s ∈ fs.files) (hw : fs.WithinFile s d) {f : Int}
    (hf : f ∈ fs.files) (hne : f ≠ s) :
    (headerAt d f).contents d = (headerAt fs.sectors f).contents fs.sectors := by
  rw [hw.header hI hs hf]
  exact bytesAt_congr fun j hj => by
    rw [Nat.zero_add]
    exact hw.byte hI hs hf hne hj

theorem table (hI : fs.Inv) (hs : s ∈ fs.entries) (hw : fs.WithinFile s d) :
    Directory.Agrees fs.table (FileSystem.table { fs with sectors := d }) := by
  refine ⟨rfl, fun j hj => ?_⟩
  have hlen := hI.dirLength
  have hb := hw.byte hI (Inv.entry_mem hs) Inv.directory_mem (hI.entry_ne hs).2 (j := j)
    (by rw [← hI.dirHdr, hlen]; exact hj)
  rw [← hI.dirHdr] at hb
  exact hb

theorem marked (hI : fs.Inv) (hs : s ∈ fs.entries) (hw : fs.WithinFile s d) {i : Nat}
    (hi : i < numSectors) : FileSystem.marked { fs with sectors := d } i = fs.marked i := by
  refine BitMap.bitOf_congr (n := 32) hi fun j hj => ?_
  have hb := hw.byte hI (Inv.entry_mem hs) Inv.freeMap_mem (hI.entry_ne hs).1 (j := j)
    (by rw [← hI.mapHdr, hI.mapLength]; exact hj)
  rw [← hI.mapHdr] at hb
  exact hb

theorem entries (hI : fs.Inv) (hs : s ∈ fs.entries) (hw : fs.WithinFile s d) :
    FileSystem.entries { fs with sectors := d } = fs.entries := (hw.table hI hs).entries

theorem inv (hI : fs.Inv) (hs : s ∈ fs.entries) (hw : fs.WithinFile s d) :
    Inv { fs with sectors := d } := by
  have hfile := Inv.entry_mem hs
  have hfiles : files { fs with sectors := d } = fs.files := by
    unfold files
    rw [hw.entries hI hs]
  have howned : owned { fs with sectors := d } = fs.owned := by
    unfold owned
    rw [hfiles]
    exact List.flatMap_congr fun f hf => holdings_congr (hw.header hI hfile hf)
  refine hI.of_ledger (fun f hf => hw.header hI hfile hf) ?_ fun f hf => ?_
  · rw [howned]
    exact hI.ledger.marked_congr fun i hi => hw.marked hI hs hi
  · rw [hfiles] at hf
    rw [hw.header hI hfile hf]
    exact hI.listed f hf

end WithinFile
end FileSystem

namespace Volume
open FileSystem

structure Inv (v : Volume) : Prop where
  fs : v.fs.Inv
  live : ∀ h ∈ v.handles, h.live = true →
    h.sector ∈ v.fs.entries ∧ h.file.hdr = headerAt v.fs.sectors h.sector

/-- `WriteAt` goes through a handle on a file that has not been removed since it
was opened, and so is still in the directory. -/
def ThroughLive (v : Volume) : Event → Prop
  | .writeAt i _ _ _ _ => ∀ h, v.handles[i]? = some h → h.live = true
  | _ => True

variable {v w : Volume}

theorem init_inv {fs : FileSystem} (hI : fs.Inv) : Inv ⟨fs, []⟩ := ⟨hI, fun h hh => by cases hh⟩

/-! ## Steps -/

theorem Inv.create (hv : v.Inv) {name : Nat → UInt8} {size : BitVec 32} {fresh : Fresh}
    (h : v.step (.create name size fresh) = .ok w) : w.Inv := by
  obtain ⟨⟨r, fs'⟩, hfs, h⟩ := bind_eq_ok.mp h
  cases h
  rcases create_cases hv.fs name size fresh with
    ⟨hno, -⟩ | ⟨-, fs'', s, ss, hyes, hC, -⟩ | ⟨-, -, herr⟩
  · rw [hno] at hfs
    cases hfs
    exact hv
  · rw [hyes] at hfs
    cases hfs
    refine ⟨hC.inv, fun h hh hlive => ?_⟩
    obtain ⟨hmem, hhdr⟩ := hv.live h hh hlive
    refine ⟨hC.entries.mem_iff.mpr (List.mem_cons_of_mem _ hmem), ?_⟩
    rw [hC.kept _ (FileSystem.Inv.entry_mem hmem)]
    exact hhdr
  · rw [herr] at hfs
    cases hfs

theorem step_openFile (hv : v.Inv) (name : Nat → UInt8) (fresh : Fresh) :
    v.step (.openFile name fresh) = .ok v ∨
      v.fs.table.find name ∈ v.fs.entries ∧ v.step (.openFile name fresh) =
        .ok { v with handles := v.handles ++
          [⟨⟨headerAt v.fs.sectors (v.fs.table.find name), 0⟩, v.fs.table.find name, true⟩] } := by
  obtain ⟨dir, hdir, hagree⟩ := hv.fs.directory_eq fresh
  simp only [step, hdir, ok_bind]
  rcases openFile_cases hv.fs name fresh with hnone | ⟨hmem, hsome⟩
  · left
    rw [hnone, ok_bind]
  · right
    rw [hsome, ok_bind, hagree.find]
    exact ⟨hmem, rfl⟩

theorem Inv.openFile (hv : v.Inv) {name : Nat → UInt8} {fresh : Fresh}
    (h : v.step (.openFile name fresh) = .ok w) : w.Inv := by
  rcases step_openFile hv name fresh with hsame | ⟨hmem, hnew⟩
  · rw [hsame] at h
    cases h
    exact hv
  · rw [hnew] at h
    cases h
    refine ⟨hv.fs, fun h hh hlive => ?_⟩
    rcases List.mem_append.mp hh with hh | hh
    · exact hv.live h hh hlive
    · obtain rfl := List.mem_singleton.mp hh
      exact ⟨hmem, rfl⟩

theorem step_remove (hv : v.Inv) (name : Nat → UInt8) (fresh : Fresh) :
    (v.step (.remove name fresh) = .ok v ∧ v.fs.table.findIndex name = none) ∨
      ∃ fs', Removed v.fs fs' (v.fs.table.find name) ∧ v.step (.remove name fresh) =
        .ok ⟨fs', v.handles.map (Handle.drop (v.fs.table.find name))⟩ := by
  obtain ⟨dir, hdir, hagree⟩ := hv.fs.directory_eq fresh
  simp only [step, hdir, ok_bind, hagree.find]
  rcases remove_cases hv.fs name fresh with ⟨hno, hnone⟩ | ⟨fs', hyes, hR⟩
  · left
    simp only [hno, ok_bind]
    exact ⟨rfl, hnone⟩
  · right
    simp only [hyes, ok_bind]
    exact ⟨fs', hR, rfl⟩

theorem Inv.remove (hv : v.Inv) {name : Nat → UInt8} {fresh : Fresh}
    (h : v.step (.remove name fresh) = .ok w) : w.Inv := by
  rcases step_remove hv name fresh with ⟨hsame, -⟩ | ⟨fs', hR, hnew⟩
  · rw [hsame] at h
    cases h
    exact hv
  · rw [hnew] at h
    cases h
    refine ⟨hR.inv, fun h hh hlive => ?_⟩
    obtain ⟨h₀, hh₀, rfl⟩ := List.mem_map.mp hh
    obtain ⟨hlive₀, hne⟩ := Bool.and_eq_true_iff.mp hlive
    obtain ⟨hmem, hhdr⟩ := hv.live h₀ hh₀ hlive₀
    refine ⟨(List.mem_cons.mp (hR.entries.mem_iff.mp hmem)).resolve_left (bne_iff_ne.mp hne), ?_⟩
    exact hhdr.trans (hR.kept _ (FileSystem.Inv.entry_mem hmem)).symm

/-- A write through a live handle. -/
theorem step_writeAt (hv : v.Inv) {i : Nat} {src buf : Nat → UInt8} {n p : Int} {h : Handle}
    (hi : v.handles[i]? = some h) (hlive : h.live = true)
    (hstep : v.step (.writeAt i src n p buf) = .ok w) :
    ∃ d, v.fs.WithinFile h.sector d ∧ w = { v with fs := { v.fs with sectors := d } } := by
  obtain ⟨hmem, hhdr⟩ := hv.live h (List.mem_of_getElem? hi) hlive
  have hfile := FileSystem.Inv.entry_mem hmem
  simp only [step, hi] at hstep
  obtain ⟨⟨r, d⟩, hd, hstep⟩ := bind_eq_ok.mp hstep
  cases hstep
  refine ⟨d, fun x hx => ?_, rfl⟩
  refine OpenFile.writeAt_outside ?_ hd ?_ <;> rw [hhdr]
  · exact hv.fs.sound hfile
  · exact hv.fs.outside hfile hx

theorem Inv.writeAt (hv : v.Inv) {i : Nat} {src buf : Nat → UInt8} {n p : Int}
    (hlive : v.ThroughLive (.writeAt i src n p buf))
    (hstep : v.step (.writeAt i src n p buf) = .ok w) : w.Inv := by
  cases hi : v.handles[i]? with
  | none =>
    simp only [step, hi] at hstep
    cases hstep
  | some h =>
    obtain ⟨hmem, -⟩ := hv.live h (List.mem_of_getElem? hi) (hlive h hi)
    obtain ⟨d, hw, rfl⟩ := step_writeAt hv hi (hlive h hi) hstep
    refine ⟨hw.inv hv.fs hmem, fun h' hh' hlive' => ?_⟩
    obtain ⟨hmem', hhdr'⟩ := hv.live h' hh' hlive'
    refine ⟨?_, ?_⟩
    · rw [hw.entries hv.fs hmem]
      exact hmem'
    · rw [hhdr']
      exact (hw.header hv.fs (FileSystem.Inv.entry_mem hmem) (FileSystem.Inv.entry_mem hmem')).symm

theorem step_inv (v : Volume) (e : Event) (w : Volume) (hv : v.Inv) (hg : v.ThroughLive e)
    (h : v.step e = .ok w) : w.Inv := by
  cases e with
  | create name size fresh => exact hv.create h
  | openFile name fresh => exact hv.openFile h
  | remove name fresh => exact hv.remove h
  | writeAt i src n p buf => exact hv.writeAt hg h

/-! ## The sectors are accounted for -/

/-- What the code is meant to handle: a file that fits its header, and a write
inside the range of an `int` through a handle whose file is still there. -/
def Proper (v : Volume) : Event → Prop
  | .create _ size _ => size.toInt ≤ maxFileSize
  | .writeAt i _ n p _ =>
    (∃ h, v.handles[i]? = some h ∧ h.live = true) ∧ 0 ≤ p ∧ IsInt (p + n)
  | _ => True

theorem step_returns (hv : v.Inv) {e : Event} (he : v.Proper e) : ∃ w, v.step e = .ok w := by
  cases e with
  | create name size fresh =>
    rcases create_cases hv.fs name size fresh with
      ⟨hno, -⟩ | ⟨-, fs', s, ss, hyes, -⟩ | ⟨-, hbig, -⟩
    · exact ⟨_, by simp only [step, hno, ok_bind]; rfl⟩
    · exact ⟨_, by simp only [step, hyes, ok_bind]; rfl⟩
    · exact absurd he (Int.not_le.mpr hbig)
  | openFile name fresh =>
    rcases step_openFile hv name fresh with h | ⟨-, h⟩
    · exact ⟨_, h⟩
    · exact ⟨_, h⟩
  | remove name fresh =>
    rcases step_remove hv name fresh with ⟨h, -⟩ | ⟨_, -, h⟩
    · exact ⟨_, h⟩
    · exact ⟨_, h⟩
  | writeAt i src n p buf =>
    obtain ⟨⟨h, hi, hlive⟩, hp, hn⟩ := he
    obtain ⟨hmem, hhdr⟩ := hv.live h (List.mem_of_getElem? hi) hlive
    have hsound : h.file.hdr.Sound := by
      rw [hhdr]
      exact hv.fs.sound (FileSystem.Inv.entry_mem hmem)
    obtain ⟨d, hd, -⟩ := OpenFile.writeAt_eq (d := v.fs.sectors) hsound src buf hp hn
    exact ⟨_, by simp only [step, hi, hd, ok_bind]; rfl⟩

/-! A fresh disk on which one file of one sector is created and opened. -/

def zeros : Fresh :=
  ⟨fun _ => 0, fun _ => 0, ⟨0, 0, fun _ => 0⟩, ⟨0, 0, fun _ => 0⟩, fun _ => 0, fun _ => 0⟩

def nameA : Nat → UInt8 := fun i => if i = 0 then 97 else 0

def nameB : Nat → UInt8 := fun i => if i = 0 then 98 else 0

/-- Where `Create` puts a file of one sector when the sectors below `k` are marked. -/
theorem placed {fs fs' : FileSystem} {name : Nat → UInt8} {size : BitVec 32} {s k : Nat}
    {ss : List Nat} (hC : Created fs fs' name size s ss)
    (hsize : divRoundUp size.toInt sectorSize = 1)
    (hm : ∀ i, i < numSectors → fs.marked i = decide (i < k)) : s = k ∧ ss = [k + 1] := by
  obtain ⟨hslt, hs⟩ := hC.clear s (List.mem_cons_self ..)
  rw [hm s hslt, decide_eq_false_iff_not] at hs
  have hsk : s = k := by
    by_contra hne
    have hmk := hC.lowest k (by omega)
    rw [hm k (by omega)] at hmk
    simp at hmk
  subst hsk
  have hmem : (s : Int) ∈ fs'.files :=
    FileSystem.Inv.entry_mem (hC.entries.mem_iff.mpr (List.mem_cons_self ..))
  have hone := (hC.inv.listed _ hmem).length_listed
  rw [hC.listed, hC.size, List.length_map, hsize] at hone
  obtain ⟨x, rfl⟩ := List.length_eq_one_iff.mp hone
  obtain ⟨hxlt, hx⟩ := hC.clear x (by simp)
  rw [hm x hxlt, decide_eq_false_iff_not] at hx
  have hxs : x ≠ s := fun h => (List.nodup_cons.mp hC.nodup).1 (by simp [h])
  have hxk : x = s + 1 := by
    by_contra hne
    have hmk := hC.firstFit x (List.mem_singleton_self x) (s + 1) (by omega)
    rw [hC.marked _ (by omega), hm _ (by omega)] at hmk
    simp at hmk
    omega
  exact ⟨rfl, by rw [hxk]⟩

/-- `Create` of a file of 256 bytes on an empty disk. -/
theorem create_first {fs : FileSystem} (hI : fs.Inv) (hempty : fs.entries = [])
    (hm : ∀ i, i < numSectors → fs.marked i = decide (i < 4)) (name : Nat → UInt8)
    (hs : List Handle) (fresh : Fresh) :
    ∃ fs', Created fs fs' name 256 4 [5] ∧
      step ⟨fs, hs⟩ (.create name 256 fresh) = .ok ⟨fs', hs⟩ := by
  have hroom : fs.Room name 256 := room_empty hempty hm (by decide)
  rcases create_cases hI name 256 fresh with ⟨-, hno⟩ | ⟨-, fs', s, ss, hyes, hC, -⟩ | ⟨-, hbig, -⟩
  · exact absurd hroom hno
  · obtain ⟨rfl, rfl⟩ := placed hC (by decide) hm
    exact ⟨fs', hC, by simp only [step, hyes, ok_bind]⟩
  · exact absurd hbig (by decide)

/-- The run that creates and opens a file on a fresh disk. -/
theorem create_open_first (d : Sectors) (fresh : Fresh) :
    ∃ fs fs', format d fresh = .ok fs ∧ fs.Inv ∧ fs.entries = [] ∧
      (∀ i, i < numSectors → fs.marked i = decide (i < 4)) ∧ Created fs fs' nameA 256 4 [5] ∧
      step ⟨fs, []⟩ (.create nameA 256 fresh) = .ok ⟨fs', []⟩ ∧
      step ⟨fs', []⟩ (.openFile nameA fresh) =
        .ok ⟨fs', [⟨⟨headerAt fs'.sectors 4, 0⟩, 4, true⟩]⟩ := by
  obtain ⟨fs, hfs, hI, hempty, hm⟩ := format_eq d fresh
  obtain ⟨fs', hC, hcreate⟩ := create_first hI hempty hm nameA [] fresh
  refine ⟨fs, fs', hfs, hI, hempty, hm, hC, hcreate, ?_⟩
  obtain ⟨dir, hdir, hagree⟩ := hC.inv.directory_eq fresh
  have hopen : fs'.openFile nameA fresh = .ok (some ⟨headerAt fs'.sectors 4, 0⟩) := by
    rw [FileSystem.openFile, hdir, ok_bind, hagree.find, hC.found, if_pos (by decide),
      OpenFile.new, fetchFrom_eq _ (by decide), ok_bind, ok_bind]
    rfl
  simp only [step, hdir, hopen, ok_bind, hagree.find, hC.found]
  rfl

/-- From a freshly formatted disk on, after any operations with writes through
handles on files still in the directory: the sectors marked in the free map on
the disk are exactly the headers and the data sectors of the files, each listed
once. The operations the code is meant to handle all return; in particular the
assertion of `Deallocate` never fails. -/
theorem sectors_accounted_for (d : Sectors) (fresh : Fresh) :
    ∃ fs, format d fresh = .ok fs ∧ ∀ es v, Run step ⟨fs, []⟩ es v →
      Guarded step ThroughLive ⟨fs, []⟩ es →
      Ledger numSectors v.fs.marked v.fs.owned ∧ ∀ e, v.Proper e → ∃ w, v.step e = .ok w := by
  obtain ⟨fs, hfs, hI, -⟩ := format_eq d fresh
  refine ⟨fs, hfs, fun es v hr hg => ?_⟩
  have hv := hr.guarded_inv step_inv hg (init_inv hI)
  exact ⟨hv.fs.ledger, fun e he => step_returns hv he⟩

theorem sectors_accounted_for_four :
    ∃ fs v, format (fun _ _ => 0) zeros = .ok fs ∧
      Run step ⟨fs, []⟩ [.create nameA 256 zeros, .openFile nameA zeros,
        .writeAt 0 (fun _ => 7) 10 250 (fun _ => 0), .remove nameA zeros] v ∧
      Ledger numSectors v.fs.marked v.fs.owned := by
  obtain ⟨fs, fs', hfs, hI, -, -, hC, hcreate, hopen⟩ := create_open_first (fun _ _ => 0) zeros
  obtain ⟨fs₀, hfs₀, hall⟩ := sectors_accounted_for (fun _ _ => 0) zeros
  obtain rfl : fs = fs₀ := Except.ok.inj (hfs.symm.trans hfs₀)
  have hv : Inv ⟨fs', [⟨⟨headerAt fs'.sectors 4, 0⟩, 4, true⟩]⟩ :=
    (((init_inv hI).create hcreate).openFile hopen)
  obtain ⟨v₃, hwrite⟩ := step_returns hv (e := .writeAt 0 (fun _ => 7) 10 250 (fun _ => 0))
    ⟨⟨_, rfl, rfl⟩, by decide, by decide⟩
  have hlive : ThroughLive ⟨fs', [⟨⟨headerAt fs'.sectors 4, 0⟩, 4, true⟩]⟩
      (.writeAt 0 (fun _ => 7) 10 250 (fun _ => 0)) := by
    intro h hh
    cases hh
    rfl
  obtain ⟨v₄, hremove⟩ := step_returns (hv.writeAt hlive hwrite) (e := .remove nameA zeros) trivial
  have hrun := Run.cons hcreate (.cons hopen (.cons hwrite (.cons hremove .nil)))
  have hguard : Guarded step ThroughLive ⟨fs, []⟩ [.create nameA 256 zeros,
      .openFile nameA zeros, .writeAt 0 (fun _ => 7) 10 250 (fun _ => 0), .remove nameA zeros] :=
    .cons hcreate trivial (.cons hopen trivial (.cons hwrite hlive (.cons hremove trivial trivial)))
  exact ⟨fs, v₄, hfs, hrun, (hall _ _ hrun hguard).1⟩

/-! ## Writes stay inside their file -/

/-- From a freshly formatted disk on, after any operations with writes through
handles on files still in the directory: such a write leaves every other file as
it was, the directory and the free map among them. -/
theorem writes_stay_inside (d : Sectors) (fresh : Fresh) :
    ∃ fs, format d fresh = .ok fs ∧ ∀ es v, Run step ⟨fs, []⟩ es v →
      Guarded step ThroughLive ⟨fs, []⟩ es →
      ∀ i src n p buf h w, v.handles[i]? = some h → h.live = true →
        v.step (.writeAt i src n p buf) = .ok w →
        h.sector ∈ v.fs.entries ∧ w.fs.files = v.fs.files ∧
          ∀ f ∈ v.fs.files, f ≠ h.sector →
            headerAt w.fs.sectors f = headerAt v.fs.sectors f ∧
            (headerAt w.fs.sectors f).contents w.fs.sectors =
              (headerAt v.fs.sectors f).contents v.fs.sectors := by
  obtain ⟨fs, hfs, hI, -⟩ := format_eq d fresh
  refine ⟨fs, hfs, fun es v hr hg i src n p buf h w hi hlive hstep => ?_⟩
  have hv := hr.guarded_inv step_inv hg (init_inv hI)
  obtain ⟨hmem, -⟩ := hv.live h (List.mem_of_getElem? hi) hlive
  have hfile := FileSystem.Inv.entry_mem hmem
  obtain ⟨d', hw, rfl⟩ := step_writeAt hv hi hlive hstep
  refine ⟨hmem, ?_, fun f hf hne => ⟨hw.header hv.fs hfile hf, hw.contents hv.fs hfile hf hne⟩⟩
  unfold files
  rw [hw.entries hv.fs hmem]

theorem writes_stay_inside_open :
    ∃ fs v w h, format (fun _ _ => 0) zeros = .ok fs ∧
      Run step ⟨fs, []⟩ [.create nameA 256 zeros, .openFile nameA zeros] v ∧
      v.handles[0]? = some h ∧ v.step (.writeAt 0 (fun _ => 7) 10 250 (fun _ => 0)) = .ok w ∧
      ∀ f ∈ v.fs.files, f ≠ h.sector →
        (headerAt w.fs.sectors f).contents w.fs.sectors =
          (headerAt v.fs.sectors f).contents v.fs.sectors := by
  obtain ⟨fs, fs', hfs, hI, -, -, hC, hcreate, hopen⟩ := create_open_first (fun _ _ => 0) zeros
  obtain ⟨fs₀, hfs₀, hall⟩ := writes_stay_inside (fun _ _ => 0) zeros
  obtain rfl : fs = fs₀ := Except.ok.inj (hfs.symm.trans hfs₀)
  have hv := ((init_inv hI).create hcreate).openFile hopen
  obtain ⟨w, hwrite⟩ := step_returns hv (e := .writeAt 0 (fun _ => 7) 10 250 (fun _ => 0))
    ⟨⟨_, rfl, rfl⟩, by decide, by decide⟩
  have hrun := Run.cons hcreate (.cons hopen .nil)
  have hguard : Guarded step ThroughLive ⟨fs, []⟩
      [.create nameA 256 zeros, .openFile nameA zeros] :=
    .cons hcreate trivial (.cons hopen trivial trivial)
  obtain ⟨-, -, hsame⟩ := hall _ _ hrun hguard _ _ _ _ _ _ _ rfl rfl hwrite
  exact ⟨fs, _, w, _, hfs, hrun, rfl, hwrite, fun f hf hne => (hsame f hf hne).2⟩

/-! ## A handle that outlives its file -/

/-- Two headers of one and the same data sector have the same contents. -/
theorem contents_eq_of_listed {h h' : FileHeader} (hl : h.Listed) (hl' : h'.Listed)
    (hlisted : h.listed = h'.listed) (hbytes : h.numBytes = h'.numBytes) (d : Sectors) :
    h.contents d = h'.contents d := by
  have hlen : h.length = h'.length := by
    unfold FileHeader.length FileHeader.fileLength
    rw [hbytes]
  have hcount : h.numSectors.toInt.toNat = h'.numSectors.toInt.toNat := by
    rw [hl.count, hl'.count]
    unfold FileHeader.blocks
    rw [hlen]
  unfold FileHeader.contents
  rw [← hlen]
  refine bytesAt_congr fun j hj => ?_
  have hb : (0 + j) / sectorSize < h.numSectors.toInt.toNat := by
    rw [hl.count]
    exact h.div_lt_blocks (by omega)
  have hsector : h.sector ((0 + j) / sectorSize) = h'.sector ((0 + j) / sectorSize) := by
    unfold FileHeader.listed at hlisted
    rw [← hcount] at hlisted
    exact List.map_inj_left.mp hlisted _ (List.mem_range.mpr hb)
  unfold FileHeader.byte
  rw [hsector]

/-- A file is created and opened, removed, and another one is created, which gets
the sectors of the first. A write through the old handle then changes the second
file. -/
theorem write_reaches_other_file :
    ∃ fs v w h c, format (fun _ _ => 0) zeros = .ok fs ∧
      Run step ⟨fs, []⟩ [.create nameA 256 zeros, .openFile nameA zeros, .remove nameA zeros,
        .create nameB 256 zeros] v ∧
      v.handles = [h] ∧ h.live = false ∧ v.fs.table.find nameB = 4 ∧ 4 ∈ v.fs.entries ∧
      v.step (.writeAt 0 (fun _ => c) 1 0 (fun _ => 0)) = .ok w ∧
      (headerAt w.fs.sectors 4).contents w.fs.sectors ≠
        (headerAt v.fs.sectors 4).contents v.fs.sectors := by
  obtain ⟨fs, fs₁, hfs, hI, hempty, hm, hC, hcreate, hopen⟩ :=
    create_open_first (fun _ _ => 0) zeros
  have hv₂ := ((init_inv hI).create hcreate).openFile hopen
  have hmem₁ : (4 : Int) ∈ fs₁.entries := hC.entries.mem_iff.mpr (List.mem_cons_self ..)
  -- the file is removed: the disk is as empty as before
  obtain ⟨fs₂, hR, hremove⟩ : ∃ fs₂, Removed fs₁ fs₂ 4 ∧
      step ⟨fs₁, [⟨⟨headerAt fs₁.sectors 4, 0⟩, 4, true⟩]⟩ (.remove nameA zeros) =
        .ok ⟨fs₂, [⟨⟨headerAt fs₁.sectors 4, 0⟩, 4, false⟩]⟩ := by
    rcases step_remove hv₂ nameA zeros with ⟨-, hnone⟩ | ⟨fs₂, hR, hremove⟩
    · have hfound := hC.found
      rw [Directory.find, show fs₁.table.findIndex nameA = none from hnone] at hfound
      cases hfound
    · rw [show fs₁.table.find nameA = 4 from hC.found] at hR hremove
      exact ⟨fs₂, hR, hremove⟩
  have hempty₂ : fs₂.entries = [] := by
    have hp := hC.entries.symm.trans hR.entries
    rw [hempty] at hp
    exact List.perm_nil.mp (List.perm_cons _ |>.mp hp).symm
  have hm₂ : ∀ i, i < numSectors → fs₂.marked i = decide (i < 4) := by
    intro i hi
    rw [Bool.eq_iff_iff, hR.marked i hi, hC.marked i hi, hm i hi, holdings,
      show (headerAt fs₁.sectors 4).listed = _ from hC.listed]
    simp
    omega
  obtain ⟨fs₃, hC₃, hcreate₃⟩ := create_first hR.inv hempty₂ hm₂ nameB
    [⟨⟨headerAt fs₁.sectors 4, 0⟩, 4, false⟩] zeros
  have hmem₃ : (4 : Int) ∈ fs₃.entries := hC₃.entries.mem_iff.mpr (List.mem_cons_self ..)
  have hlisted : (headerAt fs₁.sectors 4).listed = [5] := hC.listed
  have hsize : (headerAt fs₁.sectors 4).numBytes = 256 := hC.size
  -- the new file has the header of the old one, so far as it is used
  have hsame := contents_eq_of_listed (hC₃.inv.listed 4 (FileSystem.Inv.entry_mem hmem₃))
    (hC.inv.listed 4 (FileSystem.Inv.entry_mem hmem₁)) (hC₃.listed.trans hC.listed.symm)
    (hC₃.size.trans hC.size.symm)
  have hsound := hC.inv.sound (FileSystem.Inv.entry_mem hmem₁)
  have hout₄ := hC.inv.outside (FileSystem.Inv.entry_mem hmem₁) (x := 4) (by rw [hlisted]; decide)
  generalize headerAt fs₁.sectors 4 = H at *
  have hlen : H.length = 256 := by
    unfold FileHeader.length FileHeader.fileLength
    rw [hsize]
    decide
  obtain ⟨d', hd', hcont, hout⟩ := OpenFile.writeAt_eq (f := ⟨H, 0⟩) (d := fs₃.sectors) hsound
    (fun _ => H.byte fs₃.sectors 0 + 1) (fun _ => 0) (n := 1) (Int.le_refl 0) (by decide)
  have hhdr : headerAt d' 4 = headerAt fs₃.sectors 4 := headerAt_congr (hout 4 hout₄)
  refine ⟨fs, _, ⟨{ fs₃ with sectors := d' }, [⟨⟨H, 0⟩, 4, false⟩]⟩, _,
    H.byte fs₃.sectors 0 + 1, hfs,
    .cons hcreate (.cons hopen (.cons hremove (.cons hcreate₃ .nil))), rfl, rfl, hC₃.found, hmem₃,
    ?_, ?_⟩
  · simp only [step, List.getElem?_cons_zero, hd', ok_bind]
  · intro heq
    rw [hhdr, hsame, hsame, hcont, hlen] at heq
    have hhead := congrArg (fun bs : List UInt8 => bs[0]?) heq
    simp [patch, cut, FileHeader.contents, bytesAt, hlen] at hhead

end Volume
end Nachos

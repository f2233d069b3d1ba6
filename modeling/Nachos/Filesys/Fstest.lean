import Nachos.Filesys.Catalogue

/-! The commands of the file system: copy a file of the host to the disk, print, remove
and list files, and the performance test (fstest.cc, `List` of directory.cc, and the
options of main.cc that call them). Every start of Nachos either formats the disk or
finds on it what the last one has left. A session of such commands prints what the
catalogue says. -/

namespace Nachos
open Lib

namespace Directory

/-- The loop of `List`, from entry `i` on. -/
def listFrom (dir : Directory) (i : Nat) : Nat → Except Fault (List UInt8)
  | 0 => .ok []
  | n + 1 =>
    if inUse dir.table i then do
      let pos := entrySize * i + 8
      let name ← stringAt dir.table pos (dir.tableSize * entrySize - pos)
      let rest ← dir.listFrom (i + 1) n
      .ok (name ++ text "\n" ++ rest)
    else dir.listFrom (i + 1) n

/-- `Directory::List`. -/
def list (dir : Directory) : Except Fault (List UInt8) := dir.listFrom 0 dir.tableSize

end Directory

/-- `FileSystem::List`. -/
def FileSystem.list (fs : FileSystem) (fresh : Fresh) : Except Fault (List UInt8) := do
  let directory ← fs.directory fresh
  directory.list

/-- What the memory that a command allocates holds before it is written: for each call
of the file system in turn, for each write, in the buffer of the command, and behind
the end of a name. -/
structure Scratch where
  fresh : Nat → Fresh
  writeBuf : Nat → Nat → UInt8
  buffer : Nat → UInt8
  behind : Nat → UInt8

namespace Fstest

abbrev transferSize : Nat := 10

/-- The loop of `Copy`: `rest` is what is left of the host's file. -/
def copyLoop (d : Sectors) (file : OpenFile) (buffer : Nat → UInt8) (writeBuf : Nat → Nat → UInt8)
    (rest : List UInt8) : Nat → Except Fault Sectors
  | 0 => .error .disabled
  | fuel + 1 =>
    let amount := rest.take transferSize
    if amount = [] then .ok d
    else do
      let buffer := overlay buffer 0 amount
      let (_, file, d) ← file.write d buffer amount.length (writeBuf fuel)
      copyLoop d file buffer writeBuf (rest.drop transferSize) fuel

/-- The loop of `Print`. -/
def printLoop (d : Sectors) (file : OpenFile) : Nat → Except Fault (List UInt8)
  | 0 => .error .disabled
  | fuel + 1 => do
    let (bytes, file) ← file.read d transferSize
    if bytes = [] then .ok []
    else do
      let rest ← printLoop d file fuel
      .ok (bytes ++ rest)

/-- How a command can stop short: in the file system, or because `Copy` cannot open
the file it has created. -/
inductive Stop
  | fault (f : Fault)
  | notOpened

def sys {α : Type} : Except Fault α → Except Stop α
  | .ok a => .ok a
  | .error f => .error (.fault f)

@[simp] theorem sys_ok {α : Type} (a : α) : sys (.ok a) = .ok a := rfl

/-- `Copy`. The host's file is `none` if it cannot be opened. -/
def copy (fuel : Nat) (fs : FileSystem) (source : List UInt8) (contents : Option (List UInt8))
    (name : EntryName) (mem : Scratch) : Except Stop (List UInt8 × FileSystem) :=
  match contents with
  | none => .ok (text "Copy: couldn't open input file " ++ source ++ text "\n", fs)
  | some bytes => do
    let (created, fs) ← sys (fs.create (name.arg mem.behind) (.ofNat 32 bytes.length) (mem.fresh 0))
    if created then do
      match ← sys (fs.openFile (name.arg mem.behind) (mem.fresh 1)) with
      | none => .error .notOpened
      | some file => do
        let d ← sys (copyLoop fs.sectors file mem.buffer mem.writeBuf bytes fuel)
        .ok ([], { fs with sectors := d })
    else .ok (text "Copy: couldn't create output file " ++ name.chars ++ text "\n", fs)

/-- `Print`. -/
def print (fuel : Nat) (fs : FileSystem) (name : EntryName) (mem : Scratch) :
    Except Fault (List UInt8) := do
  match ← fs.openFile (name.arg mem.behind) (mem.fresh 0) with
  | none => .ok (text "Print: unable to open file " ++ name.chars ++ text "\n")
  | some file => printLoop fs.sectors file fuel

/-! ## The performance test -/

/-- `FileName`. -/
def testFile : EntryName := ⟨[84, 101, 115, 116, 70, 105, 108, 101], by decide, by decide⟩

/-- `Contents`. -/
def contents : List UInt8 := text "1234567890"

abbrev contentSize : Nat := 10

/-- `FileSize`, in chunks. -/
abbrev fileChunks : Nat := 5000

/-- The loop of `FileWrite`. -/
def writeLoop (d : Sectors) (file : OpenFile) (writeBuf : Nat → Nat → UInt8) :
    Nat → Except Fault (List UInt8 × Sectors)
  | 0 => .ok ([], d)
  | n + 1 => do
    let (numBytes, file, d) ← file.write d (overlay (fun _ => 0) 0 contents) contentSize
      (writeBuf n)
    if numBytes < 10 then .ok (text "Perf test: unable to write TestFile\n", d)
    else writeLoop d file writeBuf n

/-- `FileWrite`. -/
def fileWrite (fs : FileSystem) (mem : Scratch) : Except Fault (List UInt8 × FileSystem) := do
  let head := text "Sequential write of 50000 byte file, in 10 byte chunks\n"
  let (created, fs) ← fs.create (testFile.arg mem.behind) 0 (mem.fresh 0)
  if created then do
    match ← fs.openFile (testFile.arg mem.behind) (mem.fresh 1) with
    | none => .ok (head ++ text "Perf test: unable to open TestFile\n", fs)
    | some file => do
      let (out, d) ← writeLoop fs.sectors file mem.writeBuf fileChunks
      .ok (head ++ out, { fs with sectors := d })
  else .ok (head ++ text "Perf test: can't create TestFile\n", fs)

/-- The loop of `FileRead`. -/
def readLoop (d : Sectors) (file : OpenFile) (buffer : Nat → UInt8) :
    Nat → Except Fault (List UInt8)
  | 0 => .ok []
  | n + 1 => do
    let (bytes, file) ← file.read d contentSize
    let buffer := overlay buffer 0 bytes
    if bytes.length < 10 ∨ ¬ strncmpEq buffer (overlay (fun _ => 0) 0 contents) contentSize then
      .ok (text "Perf test: unable to read TestFile\n")
    else readLoop d file buffer n

/-- `FileRead`. -/
def fileRead (fs : FileSystem) (mem : Scratch) : Except Fault (List UInt8) := do
  let head := text "Sequential read of 50000 byte file, in 10 byte chunks\n"
  match ← fs.openFile (testFile.arg mem.behind) (mem.fresh 2) with
  | none => .ok (head ++ text "Perf test: unable to open file TestFile\n")
  | some file => do
    let out ← readLoop fs.sectors file mem.buffer fileChunks
    .ok (head ++ out)

/-- `PerformanceTest`, without the statistics that it prints at the end. -/
def performanceTest (fs : FileSystem) (mem : Scratch) :
    Except Fault (List UInt8 × FileSystem) := do
  let head := text "Starting file system performance test:\n"
  let (written, fs) ← fileWrite fs mem
  let read ← fileRead fs mem
  let (removed, fs) ← fs.remove (testFile.arg mem.behind) (mem.fresh 3)
  let tail := if removed then [] else text "Perf test: unable to remove TestFile\n"
  .ok (head ++ written ++ read ++ tail, fs)

/-! ## Sessions -/

/-- The options of main.cc for the file system. -/
inductive Command
  | cp (source : List UInt8) (contents : Option (List UInt8)) (name : EntryName)
  | p (name : EntryName)
  | r (name : EntryName)
  | l
  | t

/-- The length of the host's file is an `int`. -/
def Command.Sized : Command → Prop
  | .cp _ (some bytes) _ => bytes.length < 2147483648
  | _ => True

def Command.run (fuel : Nat) (fs : FileSystem) (mem : Scratch) :
    Command → Except Stop (List UInt8 × FileSystem)
  | .cp source contents name => copy fuel fs source contents name mem
  | .p name => do
    let out ← sys (print fuel fs name mem)
    .ok (out, fs)
  | .r name => do
    let (_, fs) ← sys (fs.remove (name.arg mem.behind) (mem.fresh 0))
    .ok ([], fs)
  | .l => do
    let out ← sys (fs.list (mem.fresh 0))
    .ok (out, fs)
  | .t => sys (performanceTest fs mem)

/-- Nachos is started, with or without the option to format the disk, or is given a
command. -/
inductive Event
  | boot (format : Bool) (fresh : Fresh)
  | command (c : Command) (mem : Scratch)

def Event.Sized : Event → Prop
  | .boot _ _ => True
  | .command c _ => c.Sized

/-- The file system, and what the commands have printed. -/
structure Session where
  fs : FileSystem
  output : List (List UInt8)

namespace Session

def step (fuel : Nat) (s : Session) : Event → Except Stop Session
  | .boot format fresh => do
    let fs ← sys (if format then FileSystem.format s.fs.sectors fresh
      else FileSystem.mount s.fs.sectors)
    .ok { s with fs }
  | .command c mem => do
    let (out, fs) ← c.run fuel s.fs mem
    .ok ⟨fs, s.output ++ [out]⟩

end Session
end Fstest

/-! ## What the commands are for -/

namespace Catalogue
open Fstest

/-- The performance test. Files do not grow, so nothing can be written to a new one; and
none is as long as what is to be read. -/
def performanceTest (c : Catalogue) : List UInt8 × Catalogue :=
  let created := c.create testFile []
  let c := created.getD c
  let found := (c.get testFile).isSome
  (text "Starting file system performance test:\n" ++
    text "Sequential write of 50000 byte file, in 10 byte chunks\n" ++
    (if created.isSome then text "Perf test: unable to write TestFile\n"
      else text "Perf test: can't create TestFile\n") ++
    text "Sequential read of 50000 byte file, in 10 byte chunks\n" ++
    (if found then text "Perf test: unable to read TestFile\n"
      else text "Perf test: unable to open file TestFile\n") ++
    (if found then [] else text "Perf test: unable to remove TestFile\n"),
    c.erase testFile)

/-- What a command prints and leaves. -/
def answer (c : Catalogue) : Command → List UInt8 × Catalogue
  | .cp source none _ => (text "Copy: couldn't open input file " ++ source ++ text "\n", c)
  | .cp _ (some bytes) name =>
    match c.create name bytes with
    | some c' => ([], c')
    | none => (text "Copy: couldn't create output file " ++ name.chars ++ text "\n", c)
  | .p name =>
    match c.get name with
    | some bytes => (bytes, c)
    | none => (text "Print: unable to open file " ++ name.chars ++ text "\n", c)
  | .r name => ([], c.erase name)
  | .l => (c.toList.flatMap fun x => x.1.chars ++ text "\n", c)
  | .t => c.performanceTest

/-- What the code is meant to handle: no file that is created without fitting a header,
and when the files are listed no name of nine characters, behind which `strncpy` has
written no terminator. -/
def Handles (c : Catalogue) : Command → Prop
  | .cp _ (some bytes) name => bytes.length < 2147483648 ∧
      (bytes.length ≤ maxFileSize ∨ c.create name bytes = none)
  | .l => ∀ x ∈ c.toList, x.1.chars.length < fileNameMaxLen
  | _ => True

/-- The files behind an event. -/
def after (c : Catalogue) : Event → Catalogue
  | .boot format _ => if format then .empty else c
  | .command cmd _ => (c.answer cmd).2

/-- What is printed in a session. -/
def outputs (c : Catalogue) : List Event → List (List UInt8)
  | [] => []
  | .boot format fresh :: es => (c.after (.boot format fresh)).outputs es
  | .command cmd _ :: es => (c.answer cmd).1 :: (c.answer cmd).2.outputs es

/-- Every command of a session can be handled. -/
def Proper (c : Catalogue) : List Event → Prop
  | [] => True
  | .boot format fresh :: es => (c.after (.boot format fresh)).Proper es
  | .command cmd _ :: es => c.Handles cmd ∧ (c.answer cmd).2.Proper es

end Catalogue

/-! ## Reading and writing on -/

namespace OpenFile

variable {f : OpenFile} {d : Sectors} {q : Nat}

theorem length_le (hs : f.hdr.Sound) : f.hdr.length ≤ maxFileSize := by
  have hfits := hs.fits
  unfold FileHeader.blocks at hfits
  simp only [sectorSize, numDirect, maxFileSize] at *
  omega

/-- `Read` goes on where the last one has ended. -/
theorem read_eq (hs : f.hdr.Sound) (hq : f.seekPosition = q) (hle : q ≤ f.hdr.length) {n : Nat}
    (hn : n ≤ maxFileSize) :
    f.read d n = .ok (((f.hdr.contents d).drop q).take n,
      ⟨f.hdr, (q + min n (f.hdr.length - q) : Nat)⟩) := by
  have hlen := length_le hs
  simp only [maxFileSize] at hlen hn
  have hin : q + min n (f.hdr.length - q) ≤ f.hdr.length := by omega
  have hcut : (cut f.hdr.length n q).toNat = min n (f.hdr.length - q) := by
    unfold cut
    omega
  have hbytes : ((f.hdr.contents d).drop q).take n =
      bytesAt (f.hdr.byte d) q (min n (f.hdr.length - q)) := by
    have hmin : ((f.hdr.contents d).drop q).take n =
        ((f.hdr.contents d).drop q).take (min n (f.hdr.length - q)) := by
      rw [List.take_eq_take_iff, List.length_drop, FileSystem.Stands.length_contents]
      omega
    rw [hmin, FileHeader.contents, drop_take_bytesAt _ hin, Nat.zero_add]
  have hread : f.readAt d n f.seekPosition = .ok (((f.hdr.contents d).drop q).take n) := by
    rw [hq, readAt_eq hs (by omega) (by unfold IsInt; omega), Int.toNat_natCast, hcut, hbytes]
  have hseek : cInt (f.seekPosition + (((f.hdr.contents d).drop q).take n).length) =
      .ok (q + min n (f.hdr.length - q) : Nat) := by
    rw [hq, hbytes, bytesAt_length, ← Int.natCast_add]
    exact cInt_of_isInt (by unfold IsInt; omega)
  rw [read, hread, ok_bind, hseek, ok_bind]

/-- `Write` of bytes for which the file has room. -/
theorem write_eq (hs : f.hdr.Sound) (hq : f.seekPosition = q) {src : Nat → UInt8} {bs : List UInt8}
    (hsrc : HasBytes src 0 bs) (hin : q + bs.length ≤ f.hdr.length) (fresh : Nat → UInt8) :
    ∃ d', f.write d src bs.length fresh =
        .ok ((bs.length : Int), ⟨f.hdr, (q + bs.length : Nat)⟩, d') ∧
      f.hdr.contents d' = patch (f.hdr.contents d) q bs ∧ ∀ s, f.hdr.Outside s → d' s = d s := by
  have hlen := length_le hs
  simp only [maxFileSize] at hlen
  have hcut : cut f.hdr.length bs.length q = bs.length := by
    unfold cut
    omega
  obtain ⟨d', hd', hcont, hout⟩ := writeAt_eq (d := d) (n := bs.length) (p := q) hs src fresh
    (by omega) (by unfold IsInt; omega)
  rw [hcut] at hd'
  rw [hcut, Int.toNat_natCast, Int.toNat_natCast, hsrc.bytesAt_eq] at hcont
  refine ⟨d', ?_, hcont, hout⟩
  have hseek : cInt (f.seekPosition + (bs.length : Int)) = .ok (q + bs.length : Nat) := by
    rw [hq, ← Int.natCast_add]
    exact cInt_of_isInt (by unfold IsInt; omega)
  rw [write, hq, hd', ok_bind]
  dsimp only
  rw [← hq, hseek, ok_bind]

/-- Nothing can be written to an empty file. -/
theorem write_empty (hq : f.seekPosition = 0) (hlen : f.hdr.length = 0) (src : Nat → UInt8)
    (n : Int) (fresh : Nat → UInt8) : f.write d src n fresh = .ok (0, f, d) := by
  have hnone : n ≤ 0 ∨ f.hdr.fileLength ≤ f.seekPosition := by
    unfold FileHeader.length at hlen
    omega
  have hclamp : f.clamp n f.seekPosition = .ok none := if_pos hnone
  have hseek : cInt (f.seekPosition + 0) = .ok f.seekPosition := by
    rw [hq]
    rfl
  rw [write, writeAt, hclamp, ok_bind]
  simp only [ok_bind, hseek]

end OpenFile

namespace Fstest

variable {hdr : FileHeader} {d : Sectors} {q fuel : Nat}

/-- The copy fills the file from `q` on. -/
theorem copyLoop_eq (hs : hdr.Sound) (buffer : Nat → UInt8) (writeBuf : Nat → Nat → UInt8)
    (rest : List UInt8) (hq : q + rest.length = hdr.length) (hfuel : rest.length < fuel) :
    ∃ d', copyLoop d ⟨hdr, q⟩ buffer writeBuf rest fuel = .ok d' ∧
      hdr.contents d' = (hdr.contents d).take q ++ rest ∧ ∀ s, hdr.Outside s → d' s = d s := by
  induction fuel generalizing d q buffer rest with
  | zero => omega
  | succ fuel ih =>
    by_cases hnil : rest = []
    · subst hnil
      refine ⟨d, rfl, ?_, fun _ _ => rfl⟩
      rw [List.append_nil, List.take_of_length_le]
      rw [FileSystem.Stands.length_contents]
      exact Nat.le_of_eq hq.symm
    · let chunk := rest.take transferSize
      let tail := rest.drop transferSize
      have hrest : rest = chunk ++ tail := (List.take_append_drop _ _).symm
      have hlen : rest.length = chunk.length + tail.length := by
        rw [← List.length_append, ← hrest]
      have hpos : 0 < chunk.length := by
        have := List.length_pos_iff.mpr hnil
        simp only [chunk, List.length_take, transferSize]
        omega
      have hroom : q + chunk.length ≤ hdr.length := by omega
      obtain ⟨d₁, hwrite, hcont, hout⟩ := OpenFile.write_eq (f := ⟨hdr, q⟩) (d := d) hs rfl
        (hasBytes_overlay (m := buffer)) hroom (writeBuf fuel)
      obtain ⟨d', hloop, hcont', hout'⟩ := ih (d := d₁) (q := q + chunk.length)
        (overlay buffer 0 chunk) tail (by omega) (by omega)
      refine ⟨d', ?_, ?_, fun s hs => (hout' s hs).trans (hout s hs)⟩
      · rw [copyLoop, if_neg (List.length_pos_iff.mp hpos)]
        dsimp only
        rw [hwrite, ok_bind]
        exact hloop
      · have hfront : (hdr.contents d₁).take (q + chunk.length) =
            (hdr.contents d).take q ++ chunk := by
          rw [show hdr.contents d₁ = _ from hcont]
          refine List.take_left' ?_
          rw [List.length_append, List.length_take, FileSystem.Stands.length_contents]
          change min q hdr.length + _ = _
          omega
        rw [hcont', hfront, List.append_assoc, ← hrest]

theorem printLoop_eq (hs : hdr.Sound) (hq : q ≤ hdr.length) (hfuel : hdr.length - q < fuel) :
    printLoop d ⟨hdr, q⟩ fuel = .ok ((hdr.contents d).drop q) := by
  induction fuel generalizing q with
  | zero => omega
  | succ fuel ih =>
    have hread := OpenFile.read_eq (f := ⟨hdr, q⟩) (d := d) hs rfl hq
      (show transferSize ≤ maxFileSize by decide)
    rw [printLoop, hread, ok_bind]
    dsimp only
    by_cases hend : q = hdr.length
    · have hnil : (hdr.contents d).drop q = [] := by
        rw [List.drop_eq_nil_iff, FileSystem.Stands.length_contents]
        omega
      rw [hnil]
      rfl
    · have hne : ((hdr.contents d).drop q).take transferSize ≠ [] := by
        rw [← List.length_pos_iff, List.length_take, List.length_drop,
          FileSystem.Stands.length_contents]
        simp only [transferSize]
        omega
      rw [if_neg hne, ih (by omega) (by simp only [transferSize]; omega), ok_bind]
      have hdrop : (hdr.contents d).drop (q + min transferSize (hdr.length - q)) =
          ((hdr.contents d).drop q).drop transferSize := by
        rw [List.drop_drop]
        by_cases hmin : transferSize ≤ hdr.length - q
        · rw [Nat.min_eq_left hmin]
        · rw [Nat.min_eq_right (by omega), List.drop_eq_nil_of_le, List.drop_eq_nil_of_le]
          all_goals
            rw [FileSystem.Stands.length_contents]
            omega
      rw [hdrop, List.take_append_drop]

theorem writeLoop_empty (hlen : hdr.length = 0) (writeBuf : Nat → Nat → UInt8) (n : Nat) :
    writeLoop d ⟨hdr, 0⟩ writeBuf (n + 1) =
      .ok (text "Perf test: unable to write TestFile\n", d) := by
  rw [writeLoop, OpenFile.write_empty rfl hlen, ok_bind]
  rfl

/-- No file is as long as what the performance test wants to read. -/
theorem readLoop_eq (hs : hdr.Sound) (hq : q ≤ hdr.length) (buffer : Nat → UInt8) {n : Nat}
    (hn : hdr.length - q < contentSize * n) :
    readLoop d ⟨hdr, q⟩ buffer n = .ok (text "Perf test: unable to read TestFile\n") := by
  induction n generalizing q buffer with
  | zero => omega
  | succ n ih =>
    have hread := OpenFile.read_eq (f := ⟨hdr, q⟩) (d := d) hs rfl hq
      (show contentSize ≤ maxFileSize by decide)
    rw [readLoop, hread, ok_bind]
    dsimp only
    split
    · rfl
    · rename_i hgood
      have hten : ¬ (((hdr.contents d).drop q).take contentSize).length < 10 := fun h =>
        hgood (.inl h)
      rw [List.length_take, List.length_drop, FileSystem.Stands.length_contents] at hten
      simp only [contentSize] at *
      exact ih (by omega) _ (by omega)

end Fstest

/-! ## The commands -/

namespace Catalogue

variable {c c' : Catalogue} {nm : EntryName} {bytes old : List UInt8}

theorem create_eq_some : c.create nm bytes = some c' ↔
    c.used + sectorsOf bytes.length ≤ numSectors ∧ c.get nm = none ∧
      ∃ i, c.free = some i ∧ c'.slot = Function.update c.slot i (some (nm, bytes)) := by
  rw [create, ← Slots.insert_eq_some]
  split
  · rename_i h
    exact ⟨fun hc => ⟨h, hc⟩, fun hc => hc.2⟩
  · rename_i h
    exact iff_of_false (by simp) fun hc => h hc.1

/-- `Print` changes nothing. -/
theorem answer_p (c : Catalogue) (nm : EntryName) : (c.answer (.p nm)).2 = c := by
  rw [answer]
  split <;> rfl

theorem get_create (h : c.create nm bytes = some c') : c'.get nm = some bytes := by
  obtain ⟨-, -, i, -, hslot⟩ := create_eq_some.mp h
  exact Slots.get_eq_some.mpr ⟨i, by rw [hslot, Function.update_self]⟩

/-- A file whose bytes are given only after it has been created. -/
theorem create_update (h : c.create nm old = some c') (hlen : old.length = bytes.length)
    {i : Fin numDirEntries} (hi : c'.slot i = some (nm, old)) :
    ∃ c'', c.create nm bytes = some c'' ∧
      c''.slot = Function.update c'.slot i (some (nm, bytes)) := by
  obtain ⟨hroom, hget, j, hfree, hslot⟩ := create_eq_some.mp h
  have hj : c'.slot j = some (nm, old) := by rw [hslot, Function.update_self]
  obtain rfl := c'.distinct hi hj rfl
  rw [hlen] at hroom
  have hinsert : (c.insert nm bytes).isSome := by
    rw [Slots.insert, dif_pos hget, hfree]
    rfl
  obtain ⟨c'', hc''⟩ := Option.isSome_iff_exists.mp hinsert
  obtain ⟨-, j, hfree', hslot'⟩ := Slots.insert_eq_some.mp hc''
  cases hfree.symm.trans hfree'
  refine ⟨c'', by rw [create, if_pos hroom, hc''], ?_⟩
  rw [hslot, Function.update_idem, hslot']

end Catalogue

namespace Fstest
open FileSystem Directory

variable {fs : FileSystem} {c : Catalogue} {fuel : Nat} {nm : EntryName} {bytes : List UInt8}

/-- The bytes of an open file. -/
theorem openFile_sound (h : fs.Stands c) {i : Fin numDirEntries}
    (hi : c.slot i = some (nm, bytes)) :
    (headerAt fs.sectors (sector fs.table.table i)).Sound ∧
      (headerAt fs.sectors (sector fs.table.table i)).length = bytes.length := by
  refine ⟨h.inv.sound (Inv.entry_mem (h.mem_entries hi)), ?_⟩
  rw [← (h.file hi).2, Stands.length_contents]

/-- A copy does what it is to do, unless the file is created and does not fit its
header. -/
theorem copy_cases (h : fs.Stands c) (hfuel : maxFileSize < fuel) (source : List UInt8)
    (hint : bytes.length < 2147483648) (nm : EntryName) (mem : Scratch) :
    (∃ fs', copy fuel fs source (some bytes) nm mem =
        .ok ((c.answer (.cp source (some bytes) nm)).1, fs') ∧
      fs'.Stands (c.answer (.cp source (some bytes) nm)).2) ∨
    (¬ c.Handles (.cp source (some bytes) nm) ∧
      copy fuel fs source (some bytes) nm mem = .error (.fault .undefined)) := by
  have hsize : (BitVec.ofNat 32 bytes.length).toInt = bytes.length := by
    have hnat : (BitVec.ofNat 32 bytes.length).toNat = bytes.length :=
      Nat.mod_eq_of_lt (by omega)
    rw [BitVec.toInt_eq_toNat_of_lt (by rw [hnat]; omega), hnat]
  rw [copy]
  rcases h.create nm mem.behind hsize (mem.fresh 0) with
    ⟨hno, hnone⟩ | ⟨fs₁, old, c₁, hfit, hyes, hlen, hc₁, h₁⟩ | ⟨hbig, herr, hsome⟩
  · refine .inl ⟨fs, ?_, ?_⟩
    · rw [hno, sys_ok, ok_bind, Catalogue.answer, hnone bytes rfl]
      rfl
    · rw [Catalogue.answer, hnone bytes rfl]
      exact h
  · have hopen := h₁.openFile nm mem.behind (mem.fresh 1)
    rw [Catalogue.get_create hc₁] at hopen
    obtain ⟨i, hi, hopen⟩ := hopen
    obtain ⟨hsound, hlength⟩ := openFile_sound h₁ hi
    obtain ⟨d, hloop, hcont, hout⟩ := copyLoop_eq (d := fs₁.sectors) (q := 0) hsound mem.buffer
      mem.writeBuf bytes (by omega) (show bytes.length < fuel by omega)
    obtain ⟨c₂, hc₂, hslot⟩ := Catalogue.create_update hc₁ hlen hi
    have hanswer : c.answer (.cp source (some bytes) nm) = ([], c₂) := by
      rw [Catalogue.answer, hc₂]
    rw [hanswer]
    refine .inl ⟨{ fs₁ with sectors := d }, ?_, h₁.write hi (fun x hx => hout x ?_) ?_ hslot⟩
    · rw [hyes, sys_ok, ok_bind]
      simp only [if_true]
      rw [hopen, sys_ok, ok_bind]
      change copyLoop _ ⟨_, 0⟩ _ _ _ _ = _ at hloop
      dsimp only
      rw [hloop, sys_ok, ok_bind]
    · exact h₁.inv.outside (Inv.entry_mem (h₁.mem_entries hi)) hx
    · exact hcont
  · refine .inr ⟨?_, ?_⟩
    · rintro ⟨-, hfit | hnone⟩
      · omega
      · have := hsome bytes rfl
        rw [hnone] at this
        cases this
    · rw [herr]
      rfl

theorem print_eq (h : fs.Stands c) (hfuel : maxFileSize < fuel) (mem : Scratch) :
    print fuel fs nm mem = .ok (c.answer (.p nm)).1 := by
  have hopen := h.openFile nm mem.behind (mem.fresh 0)
  rw [print]
  cases hget : c.get nm with
  | none =>
    rw [hget] at hopen
    rw [show fs.openFile _ _ = _ from hopen, ok_bind, Catalogue.answer, hget]
  | some bytes =>
    rw [hget] at hopen
    obtain ⟨i, hi, hopen⟩ := hopen
    obtain ⟨hsound, -⟩ := openFile_sound h hi
    have hle := OpenFile.length_le (f := ⟨_, 0⟩) hsound
    have hloop := printLoop_eq (d := fs.sectors) (q := 0) hsound (by omega)
      (Nat.lt_of_le_of_lt (Nat.le_trans (Nat.sub_le _ _) hle) hfuel)
    rw [hopen, ok_bind, Catalogue.answer, hget]
    refine Eq.trans hloop ?_
    rw [List.drop_zero, (h.file hi).2]

/-! The names -/

/-- A name with room for its terminator is printed as it is. -/
theorem stringAt_eq {m : Nat → UInt8} {pos n room : Nat} {cs : List UInt8}
    (h : strChars (fun j => m (pos + j)) n = cs) (hlen : cs.length < n) (hroom : n ≤ room) :
    stringAt m pos room = .ok cs := by
  induction n generalizing pos room cs with
  | zero => omega
  | succ n ih =>
    obtain ⟨room, rfl⟩ : ∃ k, room = k + 1 := ⟨room - 1, by omega⟩
    unfold strChars at h
    rw [stringAt]
    by_cases hz : m pos = 0
    · rw [if_pos hz]
      rw [if_pos (show m (pos + 0) = 0 from hz)] at h
      rw [h]
    · rw [if_neg hz]
      rw [if_neg (show ¬ m (pos + 0) = 0 from hz)] at h
      subst h
      have htail : (fun j => m (pos + (j + 1))) = fun j => m (pos + 1 + j) := by
        funext j
        congr 1
        omega
      rw [htail] at hlen ⊢
      rw [ih rfl (by simpa using hlen) (by omega), ok_bind]
      rfl

theorem listFrom_eq {dir : Directory} (names : Nat → Option (List UInt8)) {i n : Nat}
    (hused : ∀ j, i ≤ j → j < i + n → inUse dir.table j = (names j).isSome)
    (hname : ∀ j cs, i ≤ j → j < i + n → names j = some cs → stringAt dir.table (entrySize * j + 8)
      (dir.tableSize * entrySize - (entrySize * j + 8)) = .ok cs) :
    dir.listFrom i n =
      .ok (((List.range' i n).filterMap names).flatMap fun cs => cs ++ text "\n") := by
  induction n generalizing i with
  | zero => rfl
  | succ n ih =>
    have hrest := ih (i := i + 1) (fun j hj hj' => hused j (by omega) (by omega))
      fun j cs hj hj' => hname j cs (by omega) (by omega)
    have hi := hused i (Nat.le_refl i) (by omega)
    rw [listFrom, hrest, List.range'_succ]
    cases hn : names i with
    | none =>
      rw [hn] at hi
      rw [hi, List.filterMap_cons_none hn]
      rfl
    | some cs =>
      rw [hn] at hi
      rw [hi, List.filterMap_cons_some hn]
      simp only [if_true, Option.isSome_some]
      rw [hname i cs (Nat.le_refl i) (by omega) hn, ok_bind, ok_bind, List.flatMap_cons]

theorem list_eq (h : fs.Stands c) (hshort : c.Handles .l) (fresh : Fresh) :
    fs.list fresh = .ok (c.answer .l).1 := by
  obtain ⟨dir, hdir, hagree⟩ := h.inv.directory_eq fresh
  have hsize : dir.tableSize = numDirEntries := hagree.size
  let names (j : Nat) : Option (List UInt8) :=
    if hj : j < numDirEntries then (c.slot ⟨j, hj⟩).map fun x => x.1.chars else none
  have hrange : List.range' 0 numDirEntries = (List.finRange numDirEntries).map Fin.val := by
    decide
  have hnames : (List.range' 0 numDirEntries).filterMap names =
      c.toList.map fun x => x.1.chars := by
    rw [hrange, Slots.toList, List.filterMap_map, List.map_filterMap]
    refine List.filterMap_congr fun i _ => ?_
    exact dif_pos i.isLt
  rw [FileSystem.list, hdir, ok_bind, Directory.list, hsize, listFrom_eq names, hnames,
    Catalogue.answer, List.flatMap_map]
  · intro j _ hj
    have hj' : j < numDirEntries := by omega
    rw [(hagree.sameEntry hj').inUse, h.inUse_iff ⟨j, hj'⟩]
    simp only [names, dif_pos hj', Option.isSome_map]
  · intro j cs _ hj hcs
    have hj' : j < numDirEntries := by omega
    simp only [names, dif_pos hj', Option.map_eq_some_iff] at hcs
    obtain ⟨x, hx, rfl⟩ := hcs
    have hholds := h.holds hx
    have hlen := hshort x (Slots.mem_toList.mpr ⟨_, hx⟩)
    refine stringAt_eq (n := fileNameMaxLen) ?_ hlen ?_
    · have hname := (hagree.sameEntry hj').nameAt.trans hholds.2.2
      exact hname
    · rw [hsize]
      simp only [numDirEntries, entrySize, fileNameMaxLen] at *
      omega

/-! The performance test -/

theorem fileWrite_eq (h : fs.Stands c) (mem : Scratch) :
    ∃ fs', fileWrite fs mem =
        .ok (text "Sequential write of 50000 byte file, in 10 byte chunks\n" ++
          (if (c.create testFile []).isSome then text "Perf test: unable to write TestFile\n"
            else text "Perf test: can't create TestFile\n"), fs') ∧
      fs'.Stands ((c.create testFile []).getD c) := by
  rw [fileWrite]
  have hsize : (0 : BitVec 32).toInt = (0 : Nat) := rfl
  rcases h.create testFile mem.behind hsize (mem.fresh 0) with
    ⟨hno, hnone⟩ | ⟨fs', bytes, c', -, hyes, hlen, hc', h'⟩ | ⟨hbig, -⟩
  · refine ⟨fs, ?_, ?_⟩
    · rw [hno, ok_bind, hnone [] rfl]
      rfl
    · rw [hnone [] rfl]
      exact h
  · obtain rfl := List.eq_nil_of_length_eq_zero hlen
    have hopen := h'.openFile testFile mem.behind (mem.fresh 1)
    rw [Catalogue.get_create hc'] at hopen
    obtain ⟨i, hi, hopen⟩ := hopen
    obtain ⟨-, hlength⟩ := openFile_sound h' hi
    refine ⟨fs', ?_, by rw [hc']; exact h'⟩
    rw [hyes, ok_bind]
    simp only [if_true]
    rw [hopen, ok_bind]
    dsimp only
    rw [writeLoop_empty hlength, ok_bind, hc']
    rfl
  · simp [maxFileSize] at hbig

theorem fileRead_eq (h : fs.Stands c) (mem : Scratch) :
    fileRead fs mem = .ok (text "Sequential read of 50000 byte file, in 10 byte chunks\n" ++
      if (c.get testFile).isSome then text "Perf test: unable to read TestFile\n"
      else text "Perf test: unable to open file TestFile\n") := by
  have hopen := h.openFile testFile mem.behind (mem.fresh 2)
  rw [fileRead]
  cases hget : c.get testFile with
  | none =>
    rw [hget] at hopen
    rw [show fs.openFile _ _ = _ from hopen, ok_bind]
    rfl
  | some bytes =>
    rw [hget] at hopen
    obtain ⟨i, hi, hopen⟩ := hopen
    obtain ⟨hsound, -⟩ := openFile_sound h hi
    have hle := OpenFile.length_le (f := ⟨_, 0⟩) hsound
    have hloop := readLoop_eq (d := fs.sectors) (q := 0) hsound (by omega) mem.buffer
      (n := fileChunks)
      (Nat.lt_of_le_of_lt (Nat.le_trans (Nat.sub_le _ _) hle) (by decide))
    change readLoop _ ⟨_, 0⟩ _ _ = _ at hloop
    rw [hopen, ok_bind]
    dsimp only
    rw [hloop, ok_bind]
    rfl

theorem performanceTest_eq (h : fs.Stands c) (mem : Scratch) :
    ∃ fs', performanceTest fs mem = .ok (c.performanceTest.1, fs') ∧
      fs'.Stands c.performanceTest.2 := by
  obtain ⟨fs₁, hwrite, h₁⟩ := fileWrite_eq h mem
  obtain ⟨fs₂, hremove, h₂⟩ := h₁.remove testFile mem.behind (mem.fresh 3)
  refine ⟨fs₂, ?_, h₂⟩
  rw [performanceTest, hwrite, ok_bind]
  dsimp only
  rw [fileRead_eq h₁, ok_bind, hremove, ok_bind]
  simp only [Catalogue.performanceTest, List.append_assoc]

/-- Every command does to the disk what it is to do to the catalogue, and prints what
the catalogue says. -/
theorem Command.run_eq (h : fs.Stands c) (hfuel : maxFileSize < fuel) {cmd : Command}
    (hcmd : c.Handles cmd) (mem : Scratch) :
    ∃ fs', cmd.run fuel fs mem = .ok ((c.answer cmd).1, fs') ∧ fs'.Stands (c.answer cmd).2 := by
  cases cmd with
  | cp source contents nm =>
    cases contents with
    | none => exact ⟨fs, rfl, h⟩
    | some bytes =>
      exact (copy_cases h hfuel source hcmd.1 nm mem).resolve_right fun hno => hno.1 hcmd
  | p nm =>
    refine ⟨fs, ?_, ?_⟩
    · rw [Command.run, print_eq h hfuel, sys_ok, ok_bind]
    · rw [Catalogue.answer_p]
      exact h
  | r nm =>
    obtain ⟨fs', hremove, h'⟩ := h.remove nm mem.behind (mem.fresh 0)
    refine ⟨fs', ?_, h'⟩
    rw [Command.run, hremove, sys_ok, ok_bind]
    rfl
  | l =>
    refine ⟨fs, ?_, h⟩
    rw [Command.run, list_eq h hcmd, sys_ok, ok_bind]
  | t =>
    obtain ⟨fs', htest, h'⟩ := performanceTest_eq h mem
    refine ⟨fs', ?_, h'⟩
    rw [Command.run, htest, sys_ok]
    rfl

/-- A command that comes to an end leaves the files of the catalogue; and it has printed
what the catalogue says, unless it lists the files. -/
theorem Command.stands_of_run (h : fs.Stands c) (hfuel : maxFileSize < fuel) {cmd : Command}
    (hsized : cmd.Sized) {mem : Scratch} {out : List UInt8} {fs' : FileSystem}
    (hrun : cmd.run fuel fs mem = .ok (out, fs')) :
    fs'.Stands (c.answer cmd).2 ∧ (cmd ≠ .l → out = (c.answer cmd).1) := by
  have hhandles (hcmd : c.Handles cmd) :
      fs'.Stands (c.answer cmd).2 ∧ (cmd ≠ .l → out = (c.answer cmd).1) := by
    obtain ⟨fs₁, hrun₁, h₁⟩ := Command.run_eq h hfuel hcmd mem
    cases hrun.symm.trans hrun₁
    exact ⟨h₁, fun _ => rfl⟩
  cases cmd with
  | cp source contents nm =>
    cases contents with
    | none => exact hhandles trivial
    | some bytes =>
      rcases copy_cases h hfuel source hsized nm mem with ⟨fs₁, hcopy, h₁⟩ | ⟨-, herr⟩
      · cases hrun.symm.trans hcopy
        exact ⟨h₁, fun _ => rfl⟩
      · cases hrun.symm.trans herr
  | p nm => exact hhandles trivial
  | r nm => exact hhandles trivial
  | t => exact hhandles trivial
  | l =>
    obtain ⟨names, -, hrun⟩ := bind_eq_ok.mp hrun
    cases hrun
    exact ⟨h, fun hne => absurd rfl hne⟩

namespace Session

theorem run_eq {s : Session} (h : s.fs.Stands c) (hfuel : maxFileSize < fuel) {es : List Event}
    (hes : c.Proper es) :
    ∃ s', Run (step fuel) s es s' ∧ s'.output = s.output ++ c.outputs es ∧
      s'.fs.Stands (es.foldl Catalogue.after c) := by
  induction es generalizing s c with
  | nil => exact ⟨s, .nil, (List.append_nil _).symm, h⟩
  | cons e es ih =>
    cases e with
    | boot format fresh =>
      obtain ⟨fs', hboot, h'⟩ : ∃ fs', (if format then FileSystem.format s.fs.sectors fresh
          else FileSystem.mount s.fs.sectors) = .ok fs' ∧
          fs'.Stands (c.after (.boot format fresh)) := by
        cases format with
        | true => exact format_stands _ _
        | false => exact h.mount
      obtain ⟨s', hrun, hout, hs'⟩ := ih (s := { s with fs := fs' }) h' hes
      refine ⟨s', .cons ?_ hrun, hout, hs'⟩
      rw [step, hboot, sys_ok, ok_bind]
    | command cmd mem =>
      obtain ⟨fs', hcmd, h'⟩ := Command.run_eq h hfuel hes.1 mem
      obtain ⟨s', hrun, hout, hs'⟩ := ih (s := ⟨fs', s.output ++ [(c.answer cmd).1]⟩) h' hes.2
      refine ⟨s', .cons ?_ hrun, ?_, hs'⟩
      · rw [step, hcmd, ok_bind]
      · rw [hout, Catalogue.outputs, List.append_assoc]
        rfl

end Session
end Fstest

/-! ## A copied file stays -/

namespace Catalogue
open Fstest

variable {c : Catalogue} {nm : EntryName} {bytes : List UInt8}

/-- The event leaves a file of that name alone. -/
def Keeps (nm : EntryName) : Event → Prop
  | .boot format _ => format = false
  | .command (.r nm') _ => nm' ≠ nm
  | .command .t _ => nm ≠ testFile
  | _ => True

end Catalogue

namespace Fstest.Session
open FileSystem

variable {fuel : Nat}

theorem stands_of_command {c : Catalogue} {s s' : Session} {cmd : Command} {mem : Scratch}
    (h : s.fs.Stands c) (hfuel : maxFileSize < fuel) (hsized : cmd.Sized)
    (hstep : step fuel s (.command cmd mem) = .ok s') :
    s'.fs.Stands (c.answer cmd).2 ∧
      (cmd ≠ .l → s'.output = s.output ++ [(c.answer cmd).1]) := by
  obtain ⟨⟨out, fs'⟩, hrun, hs'⟩ := bind_eq_ok.mp hstep
  cases hs'
  obtain ⟨h', hout⟩ := Command.stands_of_run h hfuel hsized hrun
  exact ⟨h', fun hl => by rw [hout hl]⟩

theorem stands_of_step {c : Catalogue} {s s' : Session} {e : Event} (h : s.fs.Stands c)
    (hfuel : maxFileSize < fuel) (hsized : e.Sized) (hstep : step fuel s e = .ok s') :
    s'.fs.Stands (c.after e) := by
  cases e with
  | boot format fresh =>
    have hes : c.Proper [.boot format fresh] := trivial
    obtain ⟨s₁, hrun, -, h₁⟩ := run_eq h hfuel hes
    cases hstep.symm.trans (run_singleton.mp hrun)
    exact h₁
  | command cmd mem => exact (stands_of_command h hfuel hsized hstep).1

/-- The state a session has led to. -/
theorem stands_of_run {c : Catalogue} {s s' : Session} {es : List Event} (h : s.fs.Stands c)
    (hfuel : maxFileSize < fuel) (hsized : ∀ e ∈ es, e.Sized) (hrun : Run (step fuel) s es s') :
    s'.fs.Stands (es.foldl Catalogue.after c) := by
  induction hrun generalizing c with
  | nil => exact h
  | cons hstep _ ih =>
    exact ih (stands_of_step h hfuel (hsized _ List.mem_cons_self) hstep)
      fun e he => hsized e (List.mem_cons_of_mem _ he)

end Fstest.Session
end Nachos

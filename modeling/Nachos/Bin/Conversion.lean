import Nachos.Bin.Coff2noff

/-! What coff2noff makes of a program: which files it converts, and that the NOFF
file has the bytes of the sections. Where a program has both uninitialised
sections, the converter does the opposite of what it should. -/

namespace Nachos
open Lib

/-! ## The header -/

theorem wordAt_eq_wordOf (bytes : List UInt8) (pos : Nat) :
    wordAt bytes pos = .ofBitVec (wordOf (fun i => bytes.getD i 0) pos) := by
  apply Int32.toBitVec_inj.mp
  unfold wordAt wordOf
  rw [Int32.toBitVec_ofNat', Int32.toBitVec_ofBitVec]
  congr 1
  dsimp only
  rw [Nat.add_zero]
  omega

theorem wordAt_of_hasBytes {bytes : List UInt8} {pos : Nat} {w : Int32}
    (h : HasBytes (fun i => bytes.getD i 0) pos (wordBytes w.toBitVec)) :
    wordAt bytes pos = w := by
  have hword : wordOf (fun i => bytes.getD i 0) pos = w.toBitVec :=
    wordOf_wordBytes fun i hi => h i hi
  rw [wordAt_eq_wordOf, hword, Int32.ofBitVec_toBitVec]

theorem segmentAt_of_hasBytes {bytes : List UInt8} {pos : Nat} {s : Segment}
    (h : HasBytes (fun i => bytes.getD i 0) pos s.bytes) : segmentAt bytes pos = s := by
  have hparts : s.bytes = wordBytes s.virtualAddr.toBitVec ++
      (wordBytes s.inFileAddr.toBitVec ++ wordBytes s.size.toBitVec) := by
    simp [Segment.bytes, wordsBytes]
  rw [hparts] at h
  obtain ⟨haddr, hrest⟩ := hasBytes_append.mp h
  obtain ⟨hfile, hsize⟩ := hasBytes_append.mp hrest
  have haddr : wordAt bytes pos = s.virtualAddr := wordAt_of_hasBytes haddr
  have hfile : wordAt bytes (pos + 4) = s.inFileAddr := wordAt_of_hasBytes hfile
  have hsize : wordAt bytes (pos + 8) = s.size := wordAt_of_hasBytes hsize
  unfold segmentAt
  rw [haddr, hfile, hsize]

theorem NoffHeader.bytes_length (h : NoffHeader) : h.bytes.length = 40 := rfl

/-- The header that is written is the one that is read. -/
theorem NoffHeader.decode_writeBytes (out : List UInt8) (h : NoffHeader) :
    NoffHeader.decode (writeBytes out 0 h.bytes) = h := by
  have hall : HasBytes (fun i => (writeBytes out 0 h.bytes).getD i 0) 0 h.bytes := by
    intro i hi
    have hread := congrArg (·[i]?) (readBytes_writeBytes out 0 h.bytes)
    dsimp only at hread ⊢
    rw [readBytes_getElem?, if_pos hi] at hread
    rw [List.getD_eq_getElem?_getD, hread, List.getElem?_eq_getElem hi]
    rfl
  obtain ⟨hmagic, hrest⟩ := hasBytes_append.mp hall
  obtain ⟨hcode, hrest⟩ := hasBytes_append.mp hrest
  obtain ⟨hinit, huninit⟩ := hasBytes_append.mp hrest
  generalize writeBytes out 0 h.bytes = file at *
  have hmagic : wordAt file 0 = h.noffMagic := wordAt_of_hasBytes hmagic
  have hcode : segmentAt file 4 = h.code := segmentAt_of_hasBytes hcode
  have hinit : segmentAt file 16 = h.initData := segmentAt_of_hasBytes hinit
  have huninit : segmentAt file 28 = h.uninitData := segmentAt_of_hasBytes huninit
  unfold NoffHeader.decode
  rw [hmagic, hcode, hinit, huninit]

/-! ## Which files are converted -/

namespace Coff

/-- Every section that is copied has a positive size and its bytes in the file, and
the output file stays within the range of an int. `fdIn` and `inNoffFile` are the
positions in both files: a section whose pointer is negative is read where the
file is. -/
def Loadable (file : List UInt8) : Nat → Int → List SectionHeader → Prop
  | _, _, [] => True
  | fdIn, inNoffFile, s :: ss =>
    if s.Copied then
      0 < s.size.toInt ∧ lseek s.scnptr.toInt fdIn + s.size.toInt.toNat ≤ file.length ∧
        IsInt (inNoffFile + s.size.toInt) ∧
        Loadable file (lseek s.scnptr.toInt fdIn + s.size.toInt.toNat)
          (inNoffFile + s.size.toInt) ss
    else Loadable file fdIn inNoffFile ss

/-- There is no reason to turn the file away, but for the uninitialised sections. -/
structure Convertible (file : List UInt8) : Prop where
  headers : systemHeaderEnd ≤ file.length ∧ headersEnd file ≤ file.length
  magics : magic file = mipselMagic ∧ systemMagic file = omagic
  known : ∀ s ∈ sections file, s.size ≠ 0 → ∃ n, s.Named n
  oneData : (sections file).Pairwise fun a b => a.Data → ¬ b.Data
  loadable : Loadable file (headersEnd file) 40 (sections file)

/-- The same in the middle of the loop, with `ss` to go. -/
structure Ready (file : List UInt8) (c : Conversion) (ss : List SectionHeader) : Prop where
  known : ∀ s ∈ ss, s.size ≠ 0 → ∃ n, s.Named n
  oneData : ss.Pairwise fun a b => a.Data → ¬ b.Data
  noData : c.noffH.initData.size ≠ 0 → ∀ s ∈ ss, ¬ s.Data
  loadable : Loadable file c.fdIn c.inNoffFile ss

section Ready
variable {file : List UInt8} {c c' : Conversion} {s : SectionHeader} {ss : List SectionHeader}

theorem loadable_of_not_copied {fdIn : Nat} {inNoffFile : Int} (h : ¬ s.Copied) :
    Loadable file fdIn inNoffFile (s :: ss) ↔ Loadable file fdIn inNoffFile ss := by
  rw [Loadable, if_neg h]

theorem loadable_of_copied (h : s.Copied) : Loadable file c.fdIn c.inNoffFile (s :: ss) ↔
    Copies file c s ∧
      Loadable file (c.copied file s).fdIn (c.copied file s).inNoffFile ss := by
  rw [Loadable, if_pos h]
  exact ⟨fun ⟨hpos, hroom, hrange, hrest⟩ => ⟨⟨hpos, hroom, hrange⟩, hrest⟩,
    fun ⟨⟨hpos, hroom, hrange⟩, hrest⟩ => ⟨hpos, hroom, hrange, hrest⟩⟩

theorem ready_of_not_data (hdata : ¬ s.Data) (hknown : s.size ≠ 0 → ∃ n, s.Named n)
    (hinit : c'.noffH.initData = c.noffH.initData)
    (hload : Loadable file c.fdIn c.inNoffFile (s :: ss) ↔
      Loadable file c'.fdIn c'.inNoffFile ss) :
    Ready file c (s :: ss) ↔ Ready file c' ss := by
  constructor
  · intro ⟨h1, h2, h3, h4⟩
    refine ⟨fun t ht => h1 t (List.mem_cons_of_mem _ ht), h2.of_cons, ?_, hload.mp h4⟩
    rw [hinit]
    exact fun hsize t ht => h3 hsize t (List.mem_cons_of_mem _ ht)
  · intro ⟨h1, h2, h3, h4⟩
    rw [hinit] at h3
    exact ⟨List.forall_mem_cons.mpr ⟨hknown, h1⟩,
      List.pairwise_cons.mpr ⟨fun _ _ h => absurd h hdata, h2⟩,
      fun hsize => List.forall_mem_cons.mpr ⟨hdata, h3 hsize⟩, hload.mpr h4⟩

/-- A round that comes through takes no reason away and adds none. -/
theorem Loads.ready_iff (h : Loads file c s c') : Ready file c (s :: ss) ↔ Ready file c' ss := by
  cases h with
  | empty none =>
    have hcopied : ¬ s.Copied := fun h => h.size_ne_zero none
    exact ready_of_not_data (fun h => h.1 none) (absurd none) rfl (loadable_of_not_copied hcopied)
  | text text copies =>
    refine ready_of_not_data text.not_data (fun _ => ⟨_, text.2⟩) rfl ?_
    exact (loadable_of_copied (.inl text)).trans (and_iff_right copies)
  | uninit uninit | merge uninit =>
    exact ready_of_not_data (fun h => h.not_uninit uninit) (fun _ => uninit.named) rfl
      (loadable_of_not_copied uninit.not_copied)
  | data data first copies =>
    have hload : Loadable file c.fdIn c.inNoffFile (s :: ss) ↔ _ :=
      (loadable_of_copied (.inr data)).trans (and_iff_right copies)
    constructor
    · intro ⟨h1, h2, _, h4⟩
      obtain ⟨hothers, h2⟩ := List.pairwise_cons.mp h2
      exact ⟨fun t ht => h1 t (List.mem_cons_of_mem _ ht), h2,
        fun _ t ht => hothers t ht data, hload.mp h4⟩
    · intro ⟨h1, h2, h3, h4⟩
      exact ⟨List.forall_mem_cons.mpr ⟨fun _ => data.named, h1⟩,
        List.pairwise_cons.mpr ⟨fun t ht _ => h3 data.1 t ht, h2⟩,
        fun hsize => absurd first hsize, hload.mpr h4⟩

/-- Nothing stops a section that is not an uninitialised one. -/
theorem Ready.loads (h : Ready file c (s :: ss)) (hs : ¬ s.Uninit) :
    ∃ c', Loads file c s c' ∧ c'.noffH.uninitData = c.noffH.uninitData := by
  rcases s.kinds with hnone | htext | hdata | huninit | ⟨hsize, hunknown⟩
  · exact ⟨c, .empty hnone, rfl⟩
  · exact ⟨_, .text htext ((loadable_of_copied (.inl htext)).mp h.loadable).1, rfl⟩
  · have hfirst : c.noffH.initData.size = 0 :=
      not_not.mp fun hne => h.noData hne s List.mem_cons_self hdata
    exact ⟨_, .data hdata hfirst ((loadable_of_copied (.inr hdata)).mp h.loadable).1, rfl⟩
  · exact absurd huninit hs
  · obtain ⟨n, hn⟩ := h.known s List.mem_cons_self hsize
    exact absurd hn (hunknown n)

/-- The loop over the sections. -/
abbrev loadSections (file : List UInt8) (c : Conversion) (ss : List SectionHeader) :
    Except Exit Conversion :=
  ss.foldlM (loadSection file) c

theorem Loads.loadSections (h : Loads file c s c') :
    loadSections file c (s :: ss) = loadSections file c' ss := by
  rw [Coff.loadSections, List.foldlM_cons, h.loadSection, ok_bind]

theorem ready_of_loadSections (h : loadSections file c ss = .ok c') : Ready file c ss := by
  induction ss generalizing c with
  | nil => exact ⟨nofun, .nil, nofun, trivial⟩
  | cons s ss ih =>
    rw [loadSections, List.foldlM_cons] at h
    obtain ⟨c1, h1, h⟩ := bind_eq_ok.mp h
    exact (loads_of_loadSection h1).ready_iff.mpr (ih h)

/-! ### The uninitialised sections among them -/

def uninits (ss : List SectionHeader) : List SectionHeader := ss.filter fun s => s.Uninit

theorem uninits_of (h : s.Uninit) : uninits (s :: ss) = s :: uninits ss :=
  List.filter_cons_of_pos (decide_eq_true h)

theorem uninits_of_not (h : ¬ s.Uninit) : uninits (s :: ss) = uninits ss :=
  List.filter_cons_of_neg (by simpa using h)

theorem loadSections_none (h : Ready file c ss) (hnone : uninits ss = []) :
    ∃ c', loadSections file c ss = .ok c' := by
  induction ss generalizing c with
  | nil => exact ⟨c, rfl⟩
  | cons s ss ih =>
    by_cases hs : s.Uninit
    · rw [uninits_of hs] at hnone
      cases hnone
    · obtain ⟨c1, hloads, -⟩ := h.loads hs
      rw [hloads.loadSections]
      exact ih (hloads.ready_iff.mp h) (uninits_of_not hs ▸ hnone)

theorem loadSections_one {a : SectionHeader} (h : Ready file c ss) (hone : uninits ss = [a])
    (hfirst : c.noffH.uninitData.size = 0) : ∃ c', loadSections file c ss = .ok c' := by
  induction ss generalizing c with
  | nil => cases hone
  | cons s ss ih =>
    by_cases hs : s.Uninit
    · rw [uninits_of hs] at hone
      have hloads : Loads file c s _ := .uninit hs hfirst
      rw [hloads.loadSections]
      exact loadSections_none (hloads.ready_iff.mp h) (List.cons.inj hone).2
    · obtain ⟨c1, hloads, hsame⟩ := h.loads hs
      rw [hloads.loadSections]
      exact ih (hloads.ready_iff.mp h) (uninits_of_not hs ▸ hone) (hsame ▸ hfirst)

/-- With an uninitialised section taken, the next one is turned away exactly if it
directly follows. -/
theorem loadSections_second {b : SectionHeader} (h : Ready file c ss) (hone : uninits ss = [b])
    (hsecond : c.noffH.uninitData.size ≠ 0) :
    loadSections file c ss = .error .bothBss ↔ b.paddr.toInt = c.noffH.uninitData.stop := by
  induction ss generalizing c with
  | nil => cases hone
  | cons s ss ih =>
    by_cases hs : s.Uninit
    · rw [uninits_of hs] at hone
      obtain ⟨rfl, hnone⟩ := List.cons.inj hone
      rw [← mergeUninit_eq_bothBss]
      cases hmerge : mergeUninit c.noffH.uninitData s with
      | error e =>
        rw [loadSections, List.foldlM_cons, loadSection_uninit hs, if_pos hsecond, hmerge,
          error_bind, error_bind, Except.error.injEq, Except.error.injEq]
      | ok u =>
        have hloads : Loads file c s _ := .merge hs hsecond hmerge
        obtain ⟨c', hok⟩ := loadSections_none (hloads.ready_iff.mp h) hnone
        rw [hloads.loadSections, hok]
        exact ⟨nofun, nofun⟩
    · obtain ⟨c1, hloads, hsame⟩ := h.loads hs
      rw [hloads.loadSections, ih (hloads.ready_iff.mp h) (uninits_of_not hs ▸ hone)
        (hsame ▸ hsecond), hsame]

theorem loadSections_two {a b : SectionHeader} (h : Ready file c ss) (htwo : uninits ss = [a, b])
    (hfirst : c.noffH.uninitData.size = 0) :
    loadSections file c ss = .error .bothBss ↔ b.paddr.toInt = a.stop := by
  induction ss generalizing c with
  | nil => cases htwo
  | cons s ss ih =>
    by_cases hs : s.Uninit
    · rw [uninits_of hs] at htwo
      obtain ⟨rfl, hone⟩ := List.cons.inj htwo
      have hloads : Loads file c s _ := .uninit hs hfirst
      rw [hloads.loadSections, loadSections_second (hloads.ready_iff.mp h) hone hs.1]
      rfl
    · obtain ⟨c1, hloads, hsame⟩ := h.loads hs
      rw [hloads.loadSections]
      exact ih (hloads.ready_iff.mp h) (uninits_of_not hs ▸ htwo) (hsame ▸ hfirst)

end Ready

/-! ## What is written -/

/-- The bytes of a section, if its pointer leads to them. -/
def rawData (file : List UInt8) (s : SectionHeader) : Option (List UInt8) :=
  if 0 ≤ s.scnptr.toInt ∧ s.scnptr.toInt + s.size.toInt ≤ file.length then
    some (readBytes file s.scnptr.toInt.toNat s.size.toInt.toNat)
  else none

/-- The segment is the section, and is found in `out` behind the header. -/
structure Located (file out : List UInt8) (seg : Segment) (s : SectionHeader) : Prop where
  virtualAddr : seg.virtualAddr = s.paddr
  size : seg.size = s.size
  behind : 40 ≤ seg.inFileAddr.toInt
  within : seg.inFileAddr.toInt + s.size.toInt ≤ out.length
  bytes : 0 ≤ s.scnptr.toInt →
    rawData file s = some (readBytes out seg.inFileAddr.toInt.toNat s.size.toInt.toNat)

/-- The segment is the section among `ss` that has `P`, or empty. -/
structure Holds (file out : List UInt8) (seg : Segment) (P : SectionHeader → Prop)
    (ss : List SectionHeader) : Prop where
  located : ∀ s ∈ ss, P s → Located file out seg s
  absent : (∀ s ∈ ss, ¬ P s) → seg.size = 0

section Holds
variable {file out : List UInt8} {seg : Segment} {P : SectionHeader → Prop}
  {s : SectionHeader} {ss : List SectionHeader}

/-- What is appended to the output file does not touch it. -/
theorem Located.append {pos : Nat} (h : Located file out seg s) (hpos : out.length ≤ pos)
    (bs : List UInt8) : Located file (writeBytes out pos bs) seg s := by
  have hlen := length_le_writeBytes out pos bs
  have hwithin := h.within
  have hbehind := h.behind
  refine ⟨h.virtualAddr, h.size, h.behind, by omega, fun hptr => ?_⟩
  have hread := h.bytes hptr
  by_cases hneg : s.size.toInt < 0
  · have hnat : s.size.toInt.toNat = 0 := by omega
    rw [hread, hnat]
    rfl
  · rw [hread, readBytes_writeBytes_of_le bs (by omega) (by omega)]

theorem Holds.skip (h : Holds file out seg P ss) (hs : ¬ P s) :
    Holds file out seg P (ss ++ [s]) := by
  refine ⟨fun t ht hP => ?_, fun hnone => h.absent fun t ht => hnone t (by simp [ht])⟩
  rcases List.mem_append.mp ht with ht | ht
  · exact h.located t ht hP
  · obtain rfl := List.mem_singleton.mp ht
    exact absurd hP hs

theorem Holds.set (hnone : ∀ t ∈ ss, ¬ P t) (hs : P s) (h : Located file out seg s) :
    Holds file out seg P (ss ++ [s]) := by
  refine ⟨fun t ht hP => ?_, fun habsent => absurd hs (habsent s (by simp))⟩
  rcases List.mem_append.mp ht with ht | ht
  · exact absurd hP (hnone t ht)
  · obtain rfl := List.mem_singleton.mp ht
    exact h

theorem Holds.append {pos : Nat} (h : Holds file out seg P ss) (hpos : out.length ≤ pos)
    (bs : List UInt8) : Holds file (writeBytes out pos bs) seg P ss :=
  ⟨fun s hs hP => (h.located s hs hP).append hpos bs, h.absent⟩

/-- An empty segment stands for no section yet. -/
theorem Holds.none_of_size (h : Holds file out seg P ss) (hP : ∀ s, P s → s.size ≠ 0)
    (hsize : seg.size = 0) : ∀ s ∈ ss, ¬ P s := fun s hs hPs =>
  hP s hPs ((h.located s hs hPs).size.symm.trans hsize)

end Holds

/-- The state of the loop behind the sections `ss`. -/
structure Written (file : List UInt8) (ss : List SectionHeader) (c : Conversion) : Prop where
  magic : c.noffH.noffMagic = noffMagicNumber
  position : c.inNoffFile = c.fdOut
  behind : 40 ≤ c.fdOut
  length : c.out.length ≤ c.fdOut
  range : IsInt c.inNoffFile
  code : Holds file c.out c.noffH.code SectionHeader.Text ss
  data : Holds file c.out c.noffH.initData SectionHeader.Data ss
  none : uninits ss = [] → c.noffH.uninitData.size = 0
  one : ∀ a, uninits ss = [a] →
    c.noffH.uninitData.virtualAddr = a.paddr ∧ c.noffH.uninitData.size = a.size

section Written
variable {file : List UInt8} {c c' : Conversion} {s : SectionHeader} {ss : List SectionHeader}

theorem toInt_ofInt32 {x : Int} (h : IsInt x) : (Int32.ofInt x).toInt = x :=
  Int32.toInt_ofInt_of_le h.1 h.2

/-- The section that is copied is found where the output file ended. -/
theorem Written.located (h : Written file ss c) (copies : Copies file c s) :
    Located file (writeBytes c.out c.fdOut
      (readBytes file (lseek s.scnptr.toInt c.fdIn) s.size.toInt.toNat))
      ⟨s.paddr, .ofInt c.inNoffFile, s.size⟩ s := by
  obtain ⟨hpos, hroom, hrange⟩ := copies
  have hlen := (readBytes_length_eq file (lseek s.scnptr.toInt c.fdIn)
    (n := s.size.toInt.toNat) (by omega)).mpr hroom
  have haddr : (Int32.ofInt c.inNoffFile).toInt = c.fdOut :=
    (toInt_ofInt32 h.range).trans h.position
  have hbehind := h.behind
  refine ⟨rfl, rfl, ?_, ?_, fun hptr => ?_⟩
  · dsimp only
    omega
  · rw [writeBytes_length, hlen]
    dsimp only
    omega
  · have hseek : lseek s.scnptr.toInt c.fdIn = s.scnptr.toInt.toNat := if_pos hptr
    rw [hseek] at hroom hlen ⊢
    have hback := readBytes_writeBytes c.out c.fdOut
      (readBytes file s.scnptr.toInt.toNat s.size.toInt.toNat)
    rw [hlen] at hback
    dsimp only
    rw [haddr, Int.toNat_natCast, rawData, if_pos ⟨hptr, by omega⟩, hback]

theorem uninits_append_of (h : s.Uninit) : uninits (ss ++ [s]) = uninits ss ++ [s] := by
  rw [uninits, List.filter_append, ← uninits, ← uninits, uninits_of h]
  rfl

theorem uninits_append_eq_singleton {a : SectionHeader} (h : s.Uninit) :
    uninits (ss ++ [s]) = [a] ↔ uninits ss = [] ∧ s = a := by
  rw [uninits_append_of h]
  constructor
  · intro hone
    have happend : uninits ss ++ [s] = [] ++ [a] := hone
    obtain ⟨hnil, hlast⟩ := List.append_inj' happend rfl
    exact ⟨hnil, List.singleton_inj.mp hlast⟩
  · intro ⟨hnil, hlast⟩
    rw [hnil, hlast]
    rfl

theorem uninits_append_of_not (h : ¬ s.Uninit) : uninits (ss ++ [s]) = uninits ss := by
  rw [uninits, List.filter_append, ← uninits, ← uninits, uninits_of_not h]
  exact List.append_nil _

/-- A section that is not an uninitialised one leaves what is known of these. -/
theorem Written.uninit_skip (h : Written file ss c) (hs : ¬ s.Uninit) :
    (uninits (ss ++ [s]) = [] → c.noffH.uninitData.size = 0) ∧
    ∀ a, uninits (ss ++ [s]) = [a] →
      c.noffH.uninitData.virtualAddr = a.paddr ∧ c.noffH.uninitData.size = a.size := by
  rw [uninits_append_of_not hs]
  exact ⟨h.none, h.one⟩

theorem Written.copied {noffH : NoffHeader} (h : Written file ss c) (copies : Copies file c s)
    (hs : ¬ s.Uninit) (hmagic : noffH.noffMagic = c.noffH.noffMagic)
    (huninit : noffH.uninitData = c.noffH.uninitData)
    (hcode : Holds file (c.copied file s).out noffH.code SectionHeader.Text (ss ++ [s]))
    (hdata : Holds file (c.copied file s).out noffH.initData SectionHeader.Data (ss ++ [s])) :
    Written file (ss ++ [s]) (Conversion.copied { c with noffH := noffH } file s) := by
  obtain ⟨hpos, hroom, hrange⟩ := copies
  have hlen := (readBytes_length_eq file (lseek s.scnptr.toInt c.fdIn)
    (n := s.size.toInt.toNat) (by omega)).mpr hroom
  obtain ⟨hnone, hone⟩ := h.uninit_skip hs
  rw [← huninit] at hnone hone
  have hposition := h.position
  have hbehind := h.behind
  have hlength := h.length
  refine ⟨hmagic.trans h.magic, ?_, ?_, ?_, hrange, hcode, hdata, hnone, hone⟩
  · dsimp only [Conversion.copied]
    omega
  · dsimp only [Conversion.copied]
    omega
  · dsimp only [Conversion.copied]
    rw [writeBytes_length, hlen]
    omega

/-- An uninitialised section changes the third segment only; what it is to be is
known for the first one. -/
theorem Written.uninit {u : Segment} (h : Written file ss c) (hs : s.Uninit)
    (hfirst : uninits ss = [] → u.virtualAddr = s.paddr ∧ u.size = s.size) :
    Written file (ss ++ [s]) { c with noffH.uninitData := u } := by
  have hcode := h.code.skip fun ht : s.Text => ht.not_uninit hs
  have hdata := h.data.skip fun hd : s.Data => hd.not_uninit hs
  refine ⟨h.magic, h.position, h.behind, h.length, h.range, hcode, hdata, fun hnil => ?_,
    fun a hone => ?_⟩
  · rw [uninits_append_of hs] at hnil
    exact absurd hnil (List.append_ne_nil_of_right_ne_nil _ (List.cons_ne_nil _ _))
  · obtain ⟨hnil, rfl⟩ := (uninits_append_eq_singleton hs).mp hone
    exact hfirst hnil

theorem Written.step (h : Written file ss c) (hloads : Loads file c s c')
    (hfresh : s.Text → ∀ t ∈ ss, ¬ t.Text) : Written file (ss ++ [s]) c' := by
  cases hloads with
  | empty none =>
    obtain ⟨hnone, hone⟩ := h.uninit_skip (s := s) fun hs => hs.1 none
    exact { h with
      code := h.code.skip fun hs => hs.1 none
      data := h.data.skip fun hs => hs.1 none
      none := hnone
      one := hone }
  | text text copies =>
    exact h.copied copies text.not_uninit rfl rfl
      (Holds.set (hfresh text) text (h.located copies))
      ((h.data.append h.length _).skip text.not_data)
  | data data first copies =>
    have hnone := h.data.none_of_size (fun _ hs => hs.1) first
    exact h.copied copies data.not_uninit rfl rfl
      ((h.code.append h.length _).skip fun ht => ht.not_data data)
      (Holds.set hnone data (h.located copies))
  | uninit uninit first => exact h.uninit uninit fun _ => ⟨rfl, rfl⟩
  | merge uninit second merged => exact h.uninit uninit fun hnil => absurd (h.none hnil) second

/-- Each of the five names is there at most once. -/
def Distinct (ss : List SectionHeader) : Prop :=
  ss.Pairwise fun a b => ∀ n, a.Named n → ¬ b.Named n

theorem Written.run {rest : List SectionHeader} (h : Written file ss c)
    (hrun : loadSections file c rest = .ok c') (distinct : Distinct (ss ++ rest)) :
    Written file (ss ++ rest) c' := by
  induction rest generalizing ss c with
  | nil =>
    cases hrun
    rwa [List.append_nil]
  | cons s rest ih =>
    rw [loadSections, List.foldlM_cons] at hrun
    obtain ⟨c1, h1, hrun⟩ := bind_eq_ok.mp hrun
    have hfresh : s.Text → ∀ t ∈ ss, ¬ t.Text := fun hs t ht hText =>
      (List.pairwise_append.mp distinct).2.2 t ht s List.mem_cons_self _ hText.2 hs.2
    have hstep := h.step (loads_of_loadSection h1) hfresh
    rw [List.append_cons] at distinct ⊢
    exact ih hstep hrun distinct

theorem start_written (file : List UInt8) (noffH : NoffHeader) :
    Written file [] (start file noffH) where
  magic := rfl
  position := rfl
  behind := Nat.le_refl _
  length := Nat.zero_le _
  range := (by decide : IsInt 40)
  code := ⟨nofun, fun _ => rfl⟩
  data := ⟨nofun, fun _ => rfl⟩
  none := fun _ => rfl
  one := nofun

end Written
/-! ## The image -/

/-- The segment is the section, and `out` has its bytes where the segment says. -/
structure Stored (file out : List UInt8) (seg : Segment) (s : SectionHeader) : Prop where
  virtualAddr : seg.virtualAddr = s.paddr
  size : seg.size = s.size
  inFileAddr : 0 ≤ seg.inFileAddr.toInt
  bytes : rawData file s = some (readBytes out seg.inFileAddr.toInt.toNat s.size.toInt.toNat)

/-- The NOFF file has the program of the COFF file: the segments of the header are
the sections with their bytes, and the third one has the addresses of the
uninitialised sections. -/
structure Image (file out : List UInt8) : Prop where
  magic : (NoffHeader.decode out).noffMagic = noffMagicNumber
  code : ∀ s ∈ sections file, s.Text → Stored file out (NoffHeader.decode out).code s
  noCode : (∀ s ∈ sections file, ¬ s.Text) → (NoffHeader.decode out).code.size = 0
  data : ∀ s ∈ sections file, s.Data → Stored file out (NoffHeader.decode out).initData s
  noData : (∀ s ∈ sections file, ¬ s.Data) → (NoffHeader.decode out).initData.size = 0
  uninit : ∀ a, (NoffHeader.decode out).uninitData.Contains a ↔
    ∃ s ∈ sections file, s.Uninit ∧ s.paddr.toInt ≤ a ∧ a < s.stop

/-- What the converter is to do: a file that it accepts keeps its program, and one
with two uninitialised sections is turned away exactly if they are not contiguous,
if there is nothing else to turn it away for. -/
structure Preserved (file : List UInt8) (noffH : NoffHeader) : Prop where
  image : ∀ out, coff2noff file noffH = .ok out → Image file out
  contiguous : ∀ a b, Convertible file → uninits (sections file) = [a, b] →
    (coff2noff file noffH = .error .bothBss ↔ b.paddr.toInt ≠ a.stop)

/-- Both uninitialised sections are there, and not empty. -/
def BothUninit (file : List UInt8) : Prop :=
  (∃ s ∈ sections file, s.size ≠ 0 ∧ s.Named .bss) ∧
    ∃ s ∈ sections file, s.size ≠ 0 ∧ s.Named .sbss

instance (file : List UInt8) : Decidable (BothUninit file) := inferInstanceAs (Decidable (_ ∧ _))

section Image
variable {file out : List UInt8} {noffH : NoffHeader} {c : Conversion}
  {s a b : SectionHeader} {ss : List SectionHeader}

theorem mem_uninits : s ∈ uninits ss ↔ s ∈ ss ∧ s.Uninit := by
  simp [uninits]

theorem Distinct.uninits_cases (distinct : Distinct ss) :
    uninits ss = [] ∨ (∃ a, uninits ss = [a]) ∨ ∃ a b, uninits ss = [a, b] := by
  have hpair : (uninits ss).Pairwise fun a b => ∀ n, a.Named n → ¬ b.Named n :=
    distinct.sublist List.filter_sublist
  have hmem : ∀ s ∈ uninits ss, s.Uninit := fun s hs => (mem_uninits.mp hs).2
  match hss : uninits ss with
  | [] => exact .inl rfl
  | [a] => exact .inr (.inl ⟨a, rfl⟩)
  | [a, b] => exact .inr (.inr ⟨a, b, rfl⟩)
  | a :: b :: d :: rest =>
    -- three sections, and two names for them
    rw [hss] at hpair hmem
    obtain ⟨ha, hpair⟩ := List.pairwise_cons.mp hpair
    have hab := ha b (by simp)
    have had := ha d (by simp)
    have hbd := (List.pairwise_cons.mp hpair).1 d (by simp)
    rcases (hmem a (by simp)).2 with ha | ha <;> rcases (hmem b (by simp)).2 with hb | hb <;>
      rcases (hmem d (by simp)).2 with hd | hd
    all_goals
      first
        | exact absurd hb (hab _ ha)
        | exact absurd hd (had _ ha)
        | exact absurd hd (hbd _ hb)

theorem Distinct.bothUninit_iff (distinct : Distinct (sections file)) :
    BothUninit file ↔ ∃ a b, uninits (sections file) = [a, b] := by
  constructor
  · intro ⟨⟨s, hs, hsize, hbss⟩, t, ht, htsize, hsbss⟩
    have hsmem : s ∈ uninits (sections file) := mem_uninits.mpr ⟨hs, hsize, .inl hbss⟩
    have htmem : t ∈ uninits (sections file) := mem_uninits.mpr ⟨ht, htsize, .inr hsbss⟩
    rcases distinct.uninits_cases with hnone | ⟨a, hone⟩ | htwo
    · rw [hnone] at hsmem
      cases hsmem
    · rw [hone] at hsmem htmem
      obtain rfl := List.mem_singleton.mp hsmem
      obtain rfl := List.mem_singleton.mp htmem
      cases hbss.unique hsbss
    · exact htwo
  · intro ⟨a, b, htwo⟩
    have hpair : (uninits (sections file)).Pairwise fun a b => ∀ n, a.Named n → ¬ b.Named n :=
      distinct.sublist List.filter_sublist
    have ha : a ∈ uninits (sections file) := by simp [htwo]
    have hb : b ∈ uninits (sections file) := by simp [htwo]
    rw [htwo] at hpair
    have hab := (List.pairwise_cons.mp hpair).1 b (by simp)
    obtain ⟨ha, hasize, haname⟩ := mem_uninits.mp ha
    obtain ⟨hb, hbsize, hbname⟩ := mem_uninits.mp hb
    rcases haname with haname | haname <;> rcases hbname with hbname | hbname
    · exact absurd hbname (hab _ haname)
    · exact ⟨⟨a, ha, hasize, haname⟩, b, hb, hbsize, hbname⟩
    · exact ⟨⟨b, hb, hbsize, hbname⟩, a, ha, hasize, haname⟩
    · exact absurd hbname (hab _ haname)

/-- What `main` does before the loop. -/
theorem Convertible.coff2noff (h : Convertible file) :
    coff2noff file noffH = (do
      let c ← loadSections file (start file noffH) (sections file)
      .ok (writeBytes c.out 0 c.noffH.bytes)) := by
  obtain ⟨hsystem, hend⟩ := h.headers
  obtain ⟨hmagic, homagic⟩ := h.magics
  have hfirst : fileHeaderEnd ≤ file.length :=
    Nat.le_trans (by decide : fileHeaderEnd ≤ systemHeaderEnd) hsystem
  unfold Coff.coff2noff
  rw [if_neg (Nat.not_lt.mpr hfirst), if_neg (not_not_intro hmagic),
    if_neg (Nat.not_lt.mpr hsystem), if_neg (not_not_intro homagic), if_neg (Nat.not_lt.mpr hend)]

theorem coff2noff_eq_ok (h : coff2noff file noffH = .ok out) : Convertible file ∧
    ∃ c, loadSections file (start file noffH) (sections file) = .ok c ∧
      out = writeBytes c.out 0 c.noffH.bytes := by
  obtain ⟨-, h⟩ := ite_error_left_eq_ok.mp h
  obtain ⟨hmagic, h⟩ := ite_error_left_eq_ok.mp h
  obtain ⟨hsystem, h⟩ := ite_error_left_eq_ok.mp h
  obtain ⟨homagic, h⟩ := ite_error_left_eq_ok.mp h
  obtain ⟨hend, h⟩ := ite_error_left_eq_ok.mp h
  obtain ⟨c, hrun, h⟩ := bind_eq_ok.mp h
  cases h
  obtain ⟨hknown, honeData, -, hload⟩ := ready_of_loadSections hrun
  exact ⟨⟨⟨Nat.not_lt.mp hsystem, Nat.not_lt.mp hend⟩, ⟨not_not.mp hmagic, not_not.mp homagic⟩,
    hknown, honeData, hload⟩, c, hrun, rfl⟩

theorem Convertible.ready (h : Convertible file) :
    Ready file (start file noffH) (sections file) :=
  ⟨h.known, h.oneData, fun hsize => absurd rfl hsize, h.loadable⟩

theorem rawData_pointer {bs : List UInt8} (h : rawData file s = some bs) :
    0 ≤ s.scnptr.toInt := by
  unfold rawData at h
  split at h
  · rename_i hptr
    exact hptr.1
  · cases h

/-- With two uninitialised sections it is the contiguous ones that are turned away. -/
theorem Convertible.bothBss_iff (h : Convertible file)
    (htwo : uninits (sections file) = [a, b]) :
    Coff.coff2noff file noffH = .error .bothBss ↔ b.paddr.toInt = a.stop := by
  have hready : Ready file (start file noffH) (sections file) := h.ready
  rw [← loadSections_two hready htwo rfl, h.coff2noff]
  cases loadSections file (start file noffH) (sections file) with
  | error e => rw [error_bind, Except.error.injEq, Except.error.injEq]
  | ok c => exact ⟨nofun, nofun⟩

theorem Convertible.preserved_false (h : Convertible file)
    (htwo : uninits (sections file) = [a, b]) : ¬ Preserved file noffH := fun hpreserved =>
  iff_not_self ((h.bothBss_iff htwo).symm.trans (hpreserved.contiguous a b h htwo))

theorem Convertible.accepted (h : Convertible file) (noffH : NoffHeader)
    (distinct : Distinct (sections file)) (hone : ¬ ∃ a b, uninits (sections file) = [a, b]) :
    ∃ out, Coff.coff2noff file noffH = .ok out := by
  have hready : Ready file (start file noffH) (sections file) := h.ready
  have hrun : ∃ c, loadSections file (start file noffH) (sections file) = .ok c := by
    rcases distinct.uninits_cases with hnone | ⟨a, ha⟩ | htwo
    · exact loadSections_none hready hnone
    · exact loadSections_one hready ha rfl
    · exact absurd htwo hone
  obtain ⟨c, hrun⟩ := hrun
  rw [h.coff2noff, hrun, ok_bind]
  exact ⟨_, rfl⟩

/-- The header, which is written last, goes in front of the segments. -/
theorem Located.stored {seg : Segment} (h : Located file out seg s) (hptr : 0 ≤ s.scnptr.toInt)
    (noffH : NoffHeader) : Stored file (writeBytes out 0 noffH.bytes) seg s := by
  have hbehind := h.behind
  refine ⟨h.virtualAddr, h.size, by omega, ?_⟩
  rw [h.bytes hptr, readBytes_writeBytes_zero]
  rw [NoffHeader.bytes_length]
  omega

theorem Written.image (h : Written file (sections file) c)
    (hone : ∀ a b, uninits (sections file) ≠ [a, b]) (distinct : Distinct (sections file))
    (hptr : ∀ s ∈ sections file, s.Copied → 0 ≤ s.scnptr.toInt) :
    Image file (writeBytes c.out 0 c.noffH.bytes) := by
  constructor <;> rw [NoffHeader.decode_writeBytes]
  · exact h.magic
  · exact fun s hs ht => (h.code.located s hs ht).stored (hptr s hs (.inl ht)) _
  · exact h.code.absent
  · exact fun s hs hd => (h.data.located s hs hd).stored (hptr s hs (.inr hd)) _
  · exact h.data.absent
  · intro a
    rcases distinct.uninits_cases with hnone | ⟨s, hs⟩ | ⟨s, t, hst⟩
    · have hsize : c.noffH.uninitData.size.toInt = 0 := Int32.toInt_inj.mpr (h.none hnone)
      constructor
      · intro ⟨hlo, hhi⟩
        unfold Segment.stop at hhi
        omega
      · intro ⟨s, hs, huninit, _⟩
        have hmem := mem_uninits.mpr ⟨hs, huninit⟩
        rw [hnone] at hmem
        cases hmem
    · obtain ⟨haddr, hsize⟩ := h.one s hs
      have hstop : c.noffH.uninitData.stop = s.stop := by
        unfold Segment.stop Segment.start SectionHeader.stop
        rw [haddr, hsize]
      have hmem : ∀ t, t ∈ sections file ∧ t.Uninit ↔ t = s := fun t => by
        rw [← mem_uninits, hs, List.mem_singleton]
      unfold Segment.Contains
      rw [hstop, Segment.start, haddr]
      constructor
      · intro hin
        obtain ⟨hsec, huninit⟩ := (hmem s).mpr rfl
        exact ⟨s, hsec, huninit, hin⟩
      · intro ⟨t, ht, huninit, hin⟩
        obtain rfl := (hmem t).mp ⟨ht, huninit⟩
        exact hin
    · exact absurd hst (hone s t)

/-- The program is preserved exactly if there is something else to turn the file away
for, or only one of the uninitialised sections is there and every section that is
copied has a pointer into the file. -/
theorem image_preserved_iff (file : List UInt8) (noffH : NoffHeader)
    (distinct : Distinct (sections file)) :
    Preserved file noffH ↔ (Convertible file →
      ¬ BothUninit file ∧ ∀ s ∈ sections file, s.Copied → 0 ≤ s.scnptr.toInt) := by
  rw [distinct.bothUninit_iff]
  constructor
  · intro h hfile
    have hone : ¬ ∃ a b, uninits (sections file) = [a, b] := fun ⟨_, _, htwo⟩ =>
      hfile.preserved_false htwo h
    refine ⟨hone, fun s hs hcopied => ?_⟩
    obtain ⟨out, hout⟩ := hfile.accepted noffH distinct hone
    have himage := h.image out hout
    rcases hcopied with ht | hd
    · exact rawData_pointer (himage.code s hs ht).bytes
    · exact rawData_pointer (himage.data s hs hd).bytes
  · intro h
    refine ⟨fun out hout => ?_, fun a b hfile htwo => absurd ⟨a, b, htwo⟩ (h hfile).1⟩
    obtain ⟨hfile, c, hrun, rfl⟩ := coff2noff_eq_ok hout
    obtain ⟨hone, hptr⟩ := h hfile
    have hwritten : Written file (sections file) c := (start_written file noffH).run hrun distinct
    exact hwritten.image (fun a b htwo => hone ⟨a, b, htwo⟩) distinct hptr

end Image

/-! ### Examples -/

/-- A COFF file: the two headers, the headers of the sections, and raw data. -/
def sampleFile (headers : List (SectionName × Nat × Nat × Nat)) (raw : List UInt8) : List UInt8 :=
  let word n := wordBytes (.ofNat 32 n)
  [0x62, 1, .ofNat headers.length, 0] ++ List.replicate 16 0 ++ [7, 1] ++ List.replicate 54 0 ++
    headers.flatMap (fun h => padded h.1.bytes 8 ++ word h.2.1 ++ word h.2.1 ++ word h.2.2.1 ++
      word h.2.2.2 ++ List.replicate 16 0) ++ raw

/-- The header on the stack, before anything is stored in it. -/
def zeroHeader : NoffHeader := ⟨0, ⟨0, 0, 0⟩, ⟨0, 0, 0⟩, ⟨0, 0, 0⟩⟩

theorem distinct_of_names {ss : List SectionHeader}
    (h : ss.Pairwise fun a b => beforeNul a.name ≠ beforeNul b.name) : Distinct ss :=
  h.imp fun hne _ ha hb => hne (ha.trans hb.symm)

/-- A program of four bytes, with a `.bss` section behind it. -/
def textAndBss : List UInt8 := sampleFile [(.text, 0, 4, 156), (.bss, 4, 8, 0)] [1, 2, 3, 4]

theorem image_preserved_iff_one :
    ∃ out, coff2noff textAndBss zeroHeader = .ok out ∧ Image textAndBss out := by
  have hpreserved : Preserved textAndBss zeroHeader :=
    (image_preserved_iff _ _ (distinct_of_names (by decide +kernel))).mpr fun _ =>
      ⟨by decide +kernel, by decide +kernel⟩
  have haccepted : (coff2noff textAndBss zeroHeader).toOption.any (fun _ => true) = true := by
    decide +kernel
  obtain ⟨out, hout, -⟩ := exists_ok_of_any haccepted
  exact ⟨out, hout, hpreserved.image out hout⟩

/-- A file with only uninitialised sections has nothing to copy. -/
theorem convertible_of_uninit {file : List UInt8} (hall : ∀ s ∈ sections file, s.Uninit)
    (headers : systemHeaderEnd ≤ file.length ∧ headersEnd file ≤ file.length)
    (magics : magic file = mipselMagic ∧ systemMagic file = omagic) : Convertible file := by
  refine ⟨headers, magics, fun s hs _ => (hall s hs).named, ?_, ?_⟩
  · refine List.pairwise_of_forall_mem_list fun a ha _ _ hdata => ?_
    exact absurd (hall a ha) hdata.not_uninit
  · generalize sections file = ss at hall
    induction ss with
    | nil => trivial
    | cons s ss ih =>
      obtain ⟨hs, hall⟩ := List.forall_mem_cons.mp hall
      exact (loadable_of_not_copied hs.not_copied).mpr (ih hall)

def bssAndSbss (paddr : Nat) : List UInt8 :=
  sampleFile [(.bss, 16, 4, 0), (.sbss, paddr, 4, 0)] []

theorem bssAndSbss_convertible : Convertible (bssAndSbss 20) ∧ Convertible (bssAndSbss 24) :=
  ⟨convertible_of_uninit (by decide +kernel) (by decide +kernel) (by decide +kernel),
    convertible_of_uninit (by decide +kernel) (by decide +kernel) (by decide +kernel)⟩

def headerOf (n : SectionName) (paddr : Int32) : SectionHeader := ⟨padded n.bytes 8, paddr, 4, 0⟩

/-- A section whose pointer is negative. -/
def noPointer : List UInt8 := sampleFile [(.text, 0, 4, 4294967295)] [1, 2, 3, 4]

/-- An `.sbss` section directly behind a `.bss` section is turned away; one that is
not is taken, and address 20 of the segment is in no section. And a section whose
pointer leads nowhere gets the bytes behind the headers. -/
theorem image_not_preserved :
    (¬ Preserved (bssAndSbss 20) zeroHeader ∧
      coff2noff (bssAndSbss 20) zeroHeader = .error .bothBss) ∧
    (¬ Preserved (bssAndSbss 24) zeroHeader ∧
      ∃ out, coff2noff (bssAndSbss 24) zeroHeader = .ok out ∧
        (NoffHeader.decode out).uninitData.Contains 20) ∧
    ¬ Preserved noPointer zeroHeader := by
  obtain ⟨hnext, hgap⟩ := bssAndSbss_convertible
  have htwo : uninits (sections (bssAndSbss 20)) = [headerOf .bss 16, headerOf .sbss 20] := by
    decide +kernel
  have htwo' : uninits (sections (bssAndSbss 24)) = [headerOf .bss 16, headerOf .sbss 24] := by
    decide +kernel
  have htaken : (coff2noff (bssAndSbss 24) zeroHeader).toOption.any (fun out =>
      decide ((NoffHeader.decode out).uninitData.Contains 20)) = true := by decide +kernel
  have hread : (coff2noff noPointer zeroHeader).toOption.any (fun _ => true) = true := by
    decide +kernel
  have hnone : ∃ s ∈ sections noPointer, s.Text ∧ rawData noPointer s = none := by decide +kernel
  refine ⟨⟨hnext.preserved_false htwo, (hnext.bothBss_iff htwo).mpr rfl⟩,
    ⟨hgap.preserved_false htwo', ?_⟩, fun hpreserved => ?_⟩
  · obtain ⟨out, hout, hin⟩ := exists_ok_of_any htaken
    exact ⟨out, hout, of_decide_eq_true hin⟩
  · obtain ⟨out, hout, -⟩ := exists_ok_of_any hread
    obtain ⟨s, hs, htext, hraw⟩ := hnone
    have hstored := ((hpreserved.image out hout).code s hs htext).bytes
    rw [hraw] at hstored
    cases hstored

end Coff
end Nachos

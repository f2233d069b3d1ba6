import Nachos.Lib.Strings
import Nachos.Lib.Words
import Nachos.Userprog.Noff

/-! The converter from COFF to NOFF (coff.h, coff2noff.c), for the little-endian
host and the 32-bit `long` it is built for. The file that it writes is the one
that an address space is made from. -/

namespace Nachos
open Lib

/-- How `main` ends without a NOFF file: it prints a message, or does what C leaves
undefined. -/
inductive Exit
  | tooShort
  | notMipsel
  | notOmagic
  | bothData
  | bothBss
  | unknownSegment
  | undefined
  deriving DecidableEq, Repr

inductive SectionName
  | text
  | data
  | rdata
  | bss
  | sbss
  deriving DecidableEq, Repr

def SectionName.bytes (n : SectionName) : List UInt8 :=
  let chars := match n with
    | .text => ['.', 't', 'e', 'x', 't']
    | .data => ['.', 'd', 'a', 't', 'a']
    | .rdata => ['.', 'r', 'd', 'a', 't', 'a']
    | .bss => ['.', 'b', 's', 's']
    | .sbss => ['.', 's', 'b', 's', 's']
  chars.map fun c => .ofNat c.toNat

/-- `struct scnhdr`, as far as it is used. -/
structure SectionHeader where
  name : List UInt8
  paddr : Int32
  size : Int32
  scnptr : Int32
  deriving DecidableEq, Repr

/-- `!strcmp(s_name, …)`. All names end before the eighth byte, so the comparison
does not leave the array. -/
def SectionHeader.Named (s : SectionHeader) (n : SectionName) : Prop :=
  beforeNul s.name = n.bytes

instance (s : SectionHeader) (n : SectionName) : Decidable (s.Named n) :=
  inferInstanceAs (Decidable (_ = _))

def Segment.bytes (s : Segment) : List UInt8 :=
  wordsBytes [s.virtualAddr.toBitVec, s.inFileAddr.toBitVec, s.size.toBitVec]

def NoffHeader.bytes (h : NoffHeader) : List UInt8 :=
  wordBytes h.noffMagic.toBitVec ++ (h.code.bytes ++ (h.initData.bytes ++ h.uninitData.bytes))

namespace Coff

def shortAt (file : List UInt8) (pos : Nat) : Nat :=
  (file.getD pos 0).toNat + 256 * (file.getD (pos + 1) 0).toNat

/-- `f_magic` and `f_nscns` of the file header, and `magic` of the one behind it. -/
def magic (file : List UInt8) : Nat := shortAt file 0
def numSections (file : List UInt8) : Nat := shortAt file 2
def systemMagic (file : List UInt8) : Nat := shortAt file 20

def mipselMagic : Nat := 0x0162
def omagic : Nat := 263

/-- The sizes of `struct filehdr`, of both headers, and of them and the section
headers. -/
def fileHeaderEnd : Nat := 20
def systemHeaderEnd : Nat := 76
def headersEnd (file : List UInt8) : Nat := systemHeaderEnd + 40 * numSections file

def sectionAt (file : List UInt8) (pos : Nat) : SectionHeader :=
  ⟨readBytes file pos 8, wordAt file (pos + 8), wordAt file (pos + 16), wordAt file (pos + 20)⟩

def sections (file : List UInt8) : List SectionHeader :=
  (List.range (numSections file)).map fun i => sectionAt file (systemHeaderEnd + 40 * i)

/-- The variables of `main`: the header, and both files with their positions. -/
structure Conversion where
  noffH : NoffHeader
  inNoffFile : Int
  fdIn : Nat
  out : List UInt8
  fdOut : Nat

/-- The position that `lseek` leaves; with a negative offset it fails, and nobody
looks. -/
def lseek (offset : Int) (pos : Nat) : Nat := if 0 ≤ offset then offset.toNat else pos

/-- `Read`; a negative count is none that `read` is defined for (and -1 is one for which
its error would pass the check). -/
def read (file : List UInt8) (pos : Nat) (nBytes : Int) : Except Exit (List UInt8) :=
  if nBytes < 0 then .error .undefined
  else if (readBytes file pos nBytes.toNat).length = nBytes.toNat then
    .ok (readBytes file pos nBytes.toNat)
  else .error .tooShort

def addInt (x y : Int) : Except Exit Int :=
  if IsInt (x + y) then .ok (x + y) else .error .undefined

/-- The copy of a section, which the cases of `.text` and of the data have in
common. -/
def copySection (file : List UInt8) (c : Conversion) (s : SectionHeader) :
    Except Exit Conversion := do
  let buffer ← read file (lseek s.scnptr.toInt c.fdIn) s.size.toInt
  let inNoffFile ← addInt c.inNoffFile s.size.toInt
  .ok { c with inNoffFile := inNoffFile
               fdIn := lseek s.scnptr.toInt c.fdIn + buffer.length
               out := writeBytes c.out c.fdOut buffer
               fdOut := c.fdOut + buffer.length }

/-- A `.bss` or `.sbss` section behind another one. -/
def mergeUninit (u : Segment) (s : SectionHeader) : Except Exit Segment := do
  let stop ← addInt u.virtualAddr.toInt u.size.toInt
  if s.paddr.toInt = stop then .error .bothBss
  else do
    let size ← addInt u.size.toInt s.size.toInt
    .ok { u with size := .ofInt size }

/-- One round of the loop over the sections. -/
def loadSection (file : List UInt8) (c : Conversion) (s : SectionHeader) :
    Except Exit Conversion :=
  if s.size = 0 then .ok c
  else if s.Named .text then
    copySection file { c with noffH.code := ⟨s.paddr, .ofInt c.inNoffFile, s.size⟩ } s
  else if s.Named .data ∨ s.Named .rdata then
    if c.noffH.initData.size ≠ 0 then .error .bothData
    else copySection file { c with noffH.initData := ⟨s.paddr, .ofInt c.inNoffFile, s.size⟩ } s
  else if s.Named .bss ∨ s.Named .sbss then
    if c.noffH.uninitData.size ≠ 0 then do
      let u ← mergeUninit c.noffH.uninitData s
      .ok { c with noffH.uninitData := u }
    else .ok { c with noffH.uninitData := { c.noffH.uninitData with
      virtualAddr := s.paddr, size := s.size } }
  else .error .unknownSegment

/-- The variables at the start of the loop, `noffH` as the stack has it. -/
def start (file : List UInt8) (noffH : NoffHeader) : Conversion where
  noffH := ⟨noffMagicNumber, { noffH.code with size := 0 }, { noffH.initData with size := 0 },
    { noffH.uninitData with size := 0 }⟩
  inNoffFile := 40
  fdIn := headersEnd file
  out := []
  fdOut := 40

/-- `main`, from the opened input file to the bytes of the output file. -/
def coff2noff (file : List UInt8) (noffH : NoffHeader) : Except Exit (List UInt8) :=
  if file.length < fileHeaderEnd then .error .tooShort
  else if magic file ≠ mipselMagic then .error .notMipsel
  else if file.length < systemHeaderEnd then .error .tooShort
  else if systemMagic file ≠ omagic then .error .notOmagic
  else if file.length < headersEnd file then .error .tooShort
  else do
    let c ← (sections file).foldlM (loadSection file) (start file noffH)
    .ok (writeBytes c.out 0 c.noffH.bytes)

/-! ## Sections -/

end Coff

namespace SectionHeader
variable {s : SectionHeader}

/-- The first address behind the section. -/
def stop (s : SectionHeader) : Int := s.paddr.toInt + s.size.toInt

def Text (s : SectionHeader) : Prop := s.size ≠ 0 ∧ s.Named .text
def Data (s : SectionHeader) : Prop := s.size ≠ 0 ∧ (s.Named .data ∨ s.Named .rdata)
def Uninit (s : SectionHeader) : Prop := s.size ≠ 0 ∧ (s.Named .bss ∨ s.Named .sbss)

/-- The sections whose bytes are copied. -/
def Copied (s : SectionHeader) : Prop := s.Text ∨ s.Data

instance (s : SectionHeader) : Decidable s.Text := inferInstanceAs (Decidable (_ ∧ _))
instance (s : SectionHeader) : Decidable s.Data := inferInstanceAs (Decidable (_ ∧ _))
instance (s : SectionHeader) : Decidable s.Uninit := inferInstanceAs (Decidable (_ ∧ _))
instance (s : SectionHeader) : Decidable s.Copied := inferInstanceAs (Decidable (_ ∨ _))

theorem Named.unique {n m : SectionName} (h : s.Named n) (h' : s.Named m) : n = m := by
  have hbytes : n.bytes = m.bytes := h.symm.trans h'
  revert hbytes
  cases n <;> cases m <;> decide

theorem Text.not_data (h : s.Text) : ¬ s.Data := by
  intro ⟨_, h'⟩
  rcases h' with h' | h' <;> cases h.2.unique h'

theorem Text.not_uninit (h : s.Text) : ¬ s.Uninit := by
  intro ⟨_, h'⟩
  rcases h' with h' | h' <;> cases h.2.unique h'

theorem Data.not_uninit (h : s.Data) : ¬ s.Uninit := by
  intro ⟨_, h'⟩
  rcases h.2 with h | h <;> rcases h' with h' | h' <;> cases h.unique h'

theorem Data.named (h : s.Data) : ∃ n, s.Named n := h.2.elim (fun h => ⟨_, h⟩) fun h => ⟨_, h⟩

theorem Uninit.named (h : s.Uninit) : ∃ n, s.Named n := h.2.elim (fun h => ⟨_, h⟩) fun h => ⟨_, h⟩

theorem Copied.size_ne_zero (h : s.Copied) : s.size ≠ 0 := h.elim And.left And.left

theorem Uninit.not_copied (h : s.Uninit) : ¬ s.Copied := fun h' =>
  h'.elim (fun ht => ht.not_uninit h) fun hd => hd.not_uninit h

theorem kinds (s : SectionHeader) :
    s.size = 0 ∨ s.Text ∨ s.Data ∨ s.Uninit ∨ (s.size ≠ 0 ∧ ∀ n, ¬ s.Named n) := by
  by_cases hsize : s.size = 0
  · exact .inl hsize
  · by_cases hname : ∃ n, s.Named n
    · obtain ⟨n, hn⟩ := hname
      cases n with
      | text => exact .inr (.inl ⟨hsize, hn⟩)
      | data => exact .inr (.inr (.inl ⟨hsize, .inl hn⟩))
      | rdata => exact .inr (.inr (.inl ⟨hsize, .inr hn⟩))
      | bss => exact .inr (.inr (.inr (.inl ⟨hsize, .inl hn⟩)))
      | sbss => exact .inr (.inr (.inr (.inl ⟨hsize, .inr hn⟩)))
    · exact .inr (.inr (.inr (.inr ⟨hsize, not_exists.mp hname⟩)))

end SectionHeader

namespace Coff

section Round
variable {file : List UInt8} {c c' : Conversion} {s : SectionHeader}

theorem loadSection_text (h : s.Text) : loadSection file c s =
    copySection file { c with noffH.code := ⟨s.paddr, .ofInt c.inNoffFile, s.size⟩ } s := by
  unfold loadSection
  rw [if_neg h.1, if_pos h.2]

theorem loadSection_data (h : s.Data) : loadSection file c s =
    if c.noffH.initData.size ≠ 0 then .error .bothData
    else copySection file
      { c with noffH.initData := ⟨s.paddr, .ofInt c.inNoffFile, s.size⟩ } s := by
  unfold loadSection
  rw [if_neg h.1, if_neg fun ht => SectionHeader.Text.not_data ⟨h.1, ht⟩ h, if_pos h.2]

theorem loadSection_uninit (h : s.Uninit) : loadSection file c s =
    if c.noffH.uninitData.size ≠ 0 then do
      let u ← mergeUninit c.noffH.uninitData s
      .ok { c with noffH.uninitData := u }
    else .ok { c with noffH.uninitData := { c.noffH.uninitData with
      virtualAddr := s.paddr, size := s.size } } := by
  unfold loadSection
  rw [if_neg h.1, if_neg fun ht => SectionHeader.Text.not_uninit ⟨h.1, ht⟩ h,
    if_neg fun hd => SectionHeader.Data.not_uninit ⟨h.1, hd⟩ h, if_pos h.2]

theorem loadSection_unknown (hsize : s.size ≠ 0) (h : ∀ n, ¬ s.Named n) :
    loadSection file c s = .error .unknownSegment := by
  unfold loadSection
  rw [if_neg hsize, if_neg (h _), if_neg fun hd => hd.elim (h _) (h _),
    if_neg fun hb => hb.elim (h _) (h _)]

theorem addInt_eq_ok {x y z : Int} : addInt x y = .ok z ↔ IsInt (x + y) ∧ x + y = z := by
  unfold addInt
  split <;> simp_all

/-- The state behind a copy. -/
def Conversion.copied (c : Conversion) (file : List UInt8) (s : SectionHeader) : Conversion :=
  { c with
    inNoffFile := c.inNoffFile + s.size.toInt
    fdIn := lseek s.scnptr.toInt c.fdIn + s.size.toInt.toNat
    out := writeBytes c.out c.fdOut
      (readBytes file (lseek s.scnptr.toInt c.fdIn) s.size.toInt.toNat)
    fdOut := c.fdOut + s.size.toInt.toNat }

/-- What a copy needs: a size that is one, and the bytes. -/
structure Copies (file : List UInt8) (c : Conversion) (s : SectionHeader) : Prop where
  size : 0 < s.size.toInt
  room : lseek s.scnptr.toInt c.fdIn + s.size.toInt.toNat ≤ file.length
  range : IsInt (c.inNoffFile + s.size.toInt)

theorem copySection_eq_ok (h : s.size ≠ 0) :
    copySection file c s = .ok c' ↔ Copies file c s ∧ c' = c.copied file s := by
  have hne : s.size.toInt ≠ 0 := fun h0 => h (Int32.toInt_inj.mp h0)
  constructor
  · intro hcopy
    obtain ⟨buffer, hread, hcopy⟩ := bind_eq_ok.mp hcopy
    obtain ⟨inNoffFile, hadd, hcopy⟩ := bind_eq_ok.mp hcopy
    obtain ⟨hrange, rfl⟩ := addInt_eq_ok.mp hadd
    obtain ⟨hneg, hread⟩ := ite_error_left_eq_ok.mp hread
    obtain ⟨hfull, hread⟩ := ite_error_eq_ok.mp hread
    cases hread
    cases hcopy
    have hpos : 0 < s.size.toInt := by omega
    refine ⟨⟨hpos, (readBytes_length_eq _ _ (by omega)).mp hfull, hrange⟩, ?_⟩
    rw [hfull]
    rfl
  · intro ⟨⟨hpos, hroom, hrange⟩, hc⟩
    have hfull := (readBytes_length_eq file (lseek s.scnptr.toInt c.fdIn)
      (n := s.size.toInt.toNat) (by omega)).mpr hroom
    unfold copySection read
    rw [if_neg (by omega), if_pos hfull, ok_bind, addInt_eq_ok.mpr ⟨hrange, rfl⟩, ok_bind, hfull,
      hc]
    rfl

/-- The test is the wrong way round: it is a section that directly follows which is
turned away. -/
theorem mergeUninit_eq_bothBss {u : Segment} :
    mergeUninit u s = .error .bothBss ↔ s.paddr.toInt = u.stop := by
  by_cases hrange : IsInt u.stop
  · have hstop : addInt u.virtualAddr.toInt u.size.toInt = .ok u.stop :=
      addInt_eq_ok.mpr ⟨hrange, rfl⟩
    unfold mergeUninit
    rw [hstop, ok_bind]
    constructor
    · intro h
      split at h
      · assumption
      · unfold addInt at h
        split at h <;> cases h
    · exact fun h => if_pos h
  · have hstop : addInt u.virtualAddr.toInt u.size.toInt = .error .undefined := if_neg hrange
    unfold mergeUninit
    rw [hstop, error_bind]
    refine ⟨nofun, fun h => absurd ?_ hrange⟩
    exact h ▸ ⟨s.paddr.le_toInt, s.paddr.toInt_lt⟩

/-- The ways through a round. -/
inductive Loads (file : List UInt8) (c : Conversion) (s : SectionHeader) : Conversion → Prop
  | empty (none : s.size = 0) : Loads file c s c
  | text (text : s.Text) (copies : Copies file c s) : Loads file c s
      (Conversion.copied { c with noffH.code := ⟨s.paddr, .ofInt c.inNoffFile, s.size⟩ } file s)
  | data (data : s.Data) (first : c.noffH.initData.size = 0) (copies : Copies file c s) :
      Loads file c s (Conversion.copied
        { c with noffH.initData := ⟨s.paddr, .ofInt c.inNoffFile, s.size⟩ } file s)
  | uninit (uninit : s.Uninit) (first : c.noffH.uninitData.size = 0) : Loads file c s
      { c with noffH.uninitData := { c.noffH.uninitData with
        virtualAddr := s.paddr, size := s.size } }
  | merge {u : Segment} (uninit : s.Uninit) (second : c.noffH.uninitData.size ≠ 0)
      (merged : mergeUninit c.noffH.uninitData s = .ok u) :
      Loads file c s { c with noffH.uninitData := u }

theorem Loads.loadSection (h : Loads file c s c') : loadSection file c s = .ok c' := by
  cases h with
  | empty none => exact if_pos none
  | text text copies =>
    rw [loadSection_text text]
    exact (copySection_eq_ok text.1).mpr ⟨⟨copies.size, copies.room, copies.range⟩, rfl⟩
  | data data first copies =>
    rw [loadSection_data data, if_neg (not_not_intro first)]
    exact (copySection_eq_ok data.1).mpr ⟨⟨copies.size, copies.room, copies.range⟩, rfl⟩
  | uninit uninit first => rw [loadSection_uninit uninit, if_neg (not_not_intro first)]
  | merge uninit second merged => rw [loadSection_uninit uninit, if_pos second, merged, ok_bind]

theorem loads_of_loadSection (h : loadSection file c s = .ok c') : Loads file c s c' := by
  rcases s.kinds with hnone | htext | hdata | huninit | ⟨hsize, hunknown⟩
  · unfold loadSection at h
    rw [if_pos hnone] at h
    cases h
    exact .empty hnone
  · rw [loadSection_text htext] at h
    obtain ⟨⟨hpos, hroom, hrange⟩, rfl⟩ := (copySection_eq_ok htext.1).mp h
    exact .text htext ⟨hpos, hroom, hrange⟩
  · rw [loadSection_data hdata] at h
    obtain ⟨hfirst, h⟩ := ite_error_left_eq_ok.mp h
    obtain ⟨⟨hpos, hroom, hrange⟩, rfl⟩ := (copySection_eq_ok hdata.1).mp h
    exact .data hdata (not_not.mp hfirst) ⟨hpos, hroom, hrange⟩
  · rw [loadSection_uninit huninit] at h
    split at h
    · rename_i hsecond
      obtain ⟨u, hmerge, h⟩ := bind_eq_ok.mp h
      cases h
      exact .merge huninit hsecond hmerge
    · rename_i hfirst
      cases h
      exact .uninit huninit (not_not.mp hfirst)
  · rw [loadSection_unknown hsize hunknown] at h
    cases h

end Round

end Coff
end Nachos

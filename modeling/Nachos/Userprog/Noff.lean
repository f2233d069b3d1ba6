import Nachos.Lib.Run
import Nachos.Machine.Registers
import Nachos.Threads.Utility

/-! The object format (noff.h) and the segment copy of `AddrSpace::loadPage`.
The copy is written in mixed `int`/`unsigned` arithmetic; `copySegment_ok`
says in plain integers what it does: within a page it treats a segment that
ends before the page's end as if it were one page longer. -/

namespace Nachos
open Lib

structure Segment where
  virtualAddr : Int32
  inFileAddr : Int32
  size : Int32
  deriving DecidableEq, Repr

structure NoffHeader where
  noffMagic : Int32
  code : Segment
  initData : Segment
  uninitData : Segment
  deriving DecidableEq, Repr

def noffMagicNumber : Int32 := 0xbadfad

/-- A little-endian word of the file. On the little-endian host `WordToHost`
is the identity, and so is `SwapHeader`. -/
def wordAt (bytes : List UInt8) (pos : Nat) : Int32 :=
  let byte i := (bytes.getD (pos + i) 0).toNat
  Int32.ofNat (byte 0 + 256 * (byte 1 + 256 * (byte 2 + 256 * byte 3)))

def segmentAt (bytes : List UInt8) (pos : Nat) : Segment :=
  ⟨wordAt bytes pos, wordAt bytes (pos + 4), wordAt bytes (pos + 8)⟩

/-- `ReadAt(&noffH, sizeof(noffH), 0)` on a file that holds a whole header. -/
def NoffHeader.decode (bytes : List UInt8) : NoffHeader :=
  ⟨wordAt bytes 0, segmentAt bytes 4, segmentAt bytes 16, segmentAt bytes 28⟩

/-- An executable. The constructor of an address space assumes that the file
is in NOFF format: a whole header with the magic number, and sizes that are
sizes. Nothing is assumed about where the segments lie. -/
structure NoffFile where
  bytes : List UInt8
  whole : 40 ≤ bytes.length
  magic : (NoffHeader.decode bytes).noffMagic = noffMagicNumber
  code_size : 0 ≤ (NoffHeader.decode bytes).code.size.toInt
  initData_size : 0 ≤ (NoffHeader.decode bytes).initData.size.toInt
  uninitData_size : 0 ≤ (NoffHeader.decode bytes).uninitData.size.toInt

/-- `offset` and `pageStart` of the segment copy, before their conversion to
`unsigned`: one of the two is set, the other stays 0. -/
def copyOffset (seg : Segment) (base : Int) : Except Fault Int :=
  if seg.virtualAddr.toInt ≤ base then cInt (base - seg.virtualAddr.toInt) else .ok 0
def copyStart (seg : Segment) (base : Int) : Except Fault Int :=
  if seg.virtualAddr.toInt ≤ base then .ok 0 else cInt (seg.virtualAddr.toInt - base)

/-- What is taken off the size when the segment ends before the page does. -/
def copyCut (base segEnd pageEnd : Int) : Except Fault Int :=
  if segEnd < pageEnd then cInt (base - segEnd) else .ok 0

/-- One of the two segment copies of `AddrSpace::loadPage`, for virtual page
`virtualPage` in frame `physPage`. -/
def copySegment (seg : Segment) (file : List UInt8) (virtualPage physPage : Nat)
    (mem : Nat → UInt8) : Except Fault (Nat → UInt8) :=
  if 0 < seg.size.toInt then do
    let base ← cInt (virtualPage * pageSize)
    let offset ← copyOffset seg base
    let pageStart ← copyStart seg base
    let segEnd ← cInt (seg.virtualAddr.toInt + seg.size.toInt)
    let pageEnd ← cInt ((virtualPage + 1) * pageSize)
    let cut ← copyCut base segEnd pageEnd
    readAt file mem (toUnsigned (pageSize * physPage + toUnsigned pageStart))
      (toSigned (toUnsigned (toUnsigned (pageSize - toUnsigned pageStart) - cut)))
      (toSigned (toUnsigned (seg.inFileAddr.toInt + toUnsigned offset)))
  else .ok mem

namespace Segment

def start (s : Segment) : Int := s.virtualAddr.toInt
def stop (s : Segment) : Int := s.start + s.size.toInt

/-- Address `a` belongs to the segment. -/
def Contains (s : Segment) (a : Int) : Prop := s.start ≤ a ∧ a < s.stop

/-- Address `a` lies in the page's worth of addresses behind a non-empty
segment. -/
def Overruns (s : Segment) (a : Int) : Prop :=
  0 < s.size.toInt ∧ s.stop ≤ a ∧ a < s.stop + pageSize

/-- The byte the executable has for address `a`, counted from the segment's
place in the file. -/
def fileByte (s : Segment) (file : List UInt8) (a : Int) : Option UInt8 :=
  if 0 ≤ s.inFileAddr.toInt + (a - s.start) then
    file[(s.inFileAddr.toInt + (a - s.start)).toNat]?
  else none

/-- The first address behind what the copy for page `v` takes. -/
def copyEnd (s : Segment) (v : Nat) : Int :=
  if s.stop < (v + 1) * pageSize then s.stop + pageSize else (v + 1) * pageSize

/-- What the copy for page `v` writes for address `a`, if it writes there. -/
def copied (s : Segment) (file : List UInt8) (v : Nat) (a : Int) : Option UInt8 :=
  if 0 < s.size.toInt ∧ s.start ≤ a ∧ a < s.copyEnd v then s.fileByte file a else none

/-- No signed operation of the copy for page `v` overflows. -/
def NoOverflow (s : Segment) (v : Nat) : Prop :=
  0 < s.size.toInt → IsInt ((v + 1) * pageSize) ∧ IsInt s.stop ∧
    (s.start ≤ v * pageSize → IsInt (v * pageSize - s.start)) ∧
    (s.stop < (v + 1) * pageSize → IsInt (v * pageSize - s.stop))

/-- The position the copy for page `v` reads from. -/
def position (s : Segment) (v : Nat) : Int := s.inFileAddr.toInt + max 0 (v * pageSize - s.start)

/-- The copy for page `v` seeks to a position the host accepts. -/
def Seeks (s : Segment) (v : Nat) : Prop :=
  0 < s.size.toInt → 0 ≤ s.position v ∧ s.position v < 2147483648

instance (s : Segment) (a : Int) : Decidable (s.Contains a) := inferInstanceAs (Decidable (_ ∧ _))
instance (s : Segment) (a : Int) : Decidable (s.Overruns a) :=
  inferInstanceAs (Decidable (_ ∧ _ ∧ _))
instance (s : Segment) (v : Nat) : Decidable (s.NoOverflow v) :=
  inferInstanceAs (Decidable (_ → _ ∧ _ ∧ _ ∧ _))
instance (s : Segment) (v : Nat) : Decidable (s.Seeks v) := inferInstanceAs (Decidable (_ → _ ∧ _))

/-- The byte of the executable for an address of the segment, or of the page's worth of
addresses behind it. -/
def reachedByte (s : Segment) (file : List UInt8) (a : Int) : Option UInt8 :=
  if s.Contains a ∨ s.Overruns a then s.fileByte file a else none

/-- Where in the frame the copy for page `v` starts, and how many bytes it
asks for. -/
def pageStart (s : Segment) (v : Nat) : Int := max 0 (s.start - v * pageSize)
def count (s : Segment) (v : Nat) : Int := s.copyEnd v - (v * pageSize + s.pageStart v)

theorem bounds (s : Segment) : IsInt s.start ∧ IsInt s.size.toInt ∧ IsInt s.inFileAddr.toInt := by
  have h (x : Int32) : IsInt x.toInt := ⟨x.le_toInt, x.toInt_lt⟩
  exact ⟨h _, h _, h _⟩

theorem pageStart_nonneg (s : Segment) (v : Nat) : 0 ≤ s.pageStart v := by
  unfold pageStart; omega

theorem pageStart_lt (s : Segment) (v : Nat) : s.pageStart v < 2147483648 := by
  obtain ⟨⟨_, h⟩, -⟩ := s.bounds
  unfold pageStart
  simp only [pageSize]
  omega

theorem count_isInt {s : Segment} {v : Nat} (hs : 0 < s.size.toInt) (ho : s.NoOverflow v) :
    IsInt (s.count v) := by
  obtain ⟨hE, hstop, hd, he⟩ := ho hs
  obtain ⟨hst, -⟩ := s.bounds
  have hstart : s.start < s.stop := by unfold stop; omega
  unfold IsInt at *
  unfold count copyEnd pageStart
  simp only [pageSize] at *
  split
  · rename_i h
    have := he h
    omega
  · omega

/-- The copy for page `v` runs over the end of the frame: the segment ends
inside the page and the file has a byte for the address behind it. -/
def Spills (s : Segment) (file : List UInt8) (v : Nat) : Prop :=
  0 < s.size.toInt ∧ v * pageSize < s.stop ∧ s.stop < (v + 1) * pageSize ∧
    (s.fileByte file ((v + 1) * pageSize)).isSome

instance (s : Segment) (file : List UInt8) (v : Nat) : Decidable (s.Spills file v) :=
  inferInstanceAs (Decidable (_ ∧ _ ∧ _ ∧ _))

end Segment

section CopySegment
variable {seg : Segment} {file : List UInt8} {v f : Nat} {mem : Nat → UInt8}

theorem copyOffset_eq (hd : seg.start ≤ v * pageSize → IsInt (v * pageSize - seg.start)) :
    copyOffset seg (v * pageSize) = .ok (max 0 (v * pageSize - seg.start)) := by
  unfold copyOffset
  rw [← Segment.start]
  split
  · rename_i h; rw [cInt_of_isInt (hd h)]; congr 1; omega
  · congr 1; omega

theorem copyStart_eq (hb : IsInt (v * pageSize)) :
    copyStart seg (v * pageSize) = .ok (seg.pageStart v) := by
  obtain ⟨hst, -⟩ := seg.bounds
  unfold copyStart Segment.pageStart
  rw [← Segment.start]
  split
  · congr 1; omega
  · have : IsInt (seg.start - v * pageSize) := by
      unfold IsInt at hst hb ⊢
      simp only [pageSize] at *
      omega
    rw [cInt_of_isInt this]; congr 1; omega

theorem copyCut_eq (he : seg.stop < (v + 1) * pageSize → IsInt (v * pageSize - seg.stop)) :
    copyCut (v * pageSize) seg.stop ((v + 1) * pageSize) =
      .ok (pageSize - seg.pageStart v - seg.count v) := by
  unfold copyCut Segment.count Segment.copyEnd
  simp only [pageSize] at he ⊢
  split
  · rename_i h
    rw [cInt_of_isInt (he h)]; congr 1; omega
  · congr 1; omega

theorem copySegment_readAt (hf : f < numPhysPages) (hs : 0 < seg.size.toInt)
    (ho : seg.NoOverflow v) :
    copySegment seg file v f mem =
      readAt file mem (pageSize * f + seg.pageStart v) (seg.count v)
        (toSigned (seg.position v)) := by
  obtain ⟨hE, hstop, hd, he⟩ := ho hs
  have hB : IsInt (v * pageSize) := by
    unfold IsInt at hE ⊢
    simp only [pageSize] at hE ⊢
    omega
  unfold copySegment
  rw [if_pos hs, cInt_of_isInt hB, ok_bind, copyOffset_eq hd, ok_bind, copyStart_eq hB, ok_bind,
    ← Segment.start, ← Segment.stop, cInt_of_isInt hstop, ok_bind, cInt_of_isInt hE, ok_bind,
    copyCut_eq he, ok_bind]
  have hps : toUnsigned (seg.pageStart v) = seg.pageStart v :=
    toUnsigned_of_nonneg (seg.pageStart_nonneg v) (by have := seg.pageStart_lt v; omega)
  have hoff : toUnsigned (max 0 (v * pageSize - seg.start)) = max 0 (v * pageSize - seg.start) := by
    unfold IsInt at hd
    exact toUnsigned_of_nonneg (by omega) (by omega)
  have hinto : toUnsigned (pageSize * f + seg.pageStart v) = pageSize * f + seg.pageStart v := by
    have h0 := seg.pageStart_nonneg v
    have hlt := seg.pageStart_lt v
    simp only [pageSize, numPhysPages] at hf ⊢
    exact toUnsigned_of_nonneg (by omega) (by omega)
  have hcount : pageSize - seg.pageStart v - (pageSize - seg.pageStart v - seg.count v) =
      seg.count v := by omega
  have hint : IsInt (pageSize - seg.pageStart v - (pageSize - seg.pageStart v - seg.count v)) := by
    rw [hcount]; exact Segment.count_isInt hs ho
  rw [hps, hoff, hinto, toSigned_detour hint, hcount, toSigned_toUnsigned]
  rfl

/-- What the copy does when it succeeds. -/
theorem copySegment_ok (hf : f < numPhysPages) (ho : seg.NoOverflow v) (hk : seg.Seeks v) :
    ∃ mem', copySegment seg file v f mem = .ok mem' ∧
      (∀ i, i < pageSize * f → mem' i = mem i) ∧
      ∀ j : Nat, mem' (pageSize * f + j) =
        (seg.copied file v (v * pageSize + j)).getD (mem (pageSize * f + j)) := by
  by_cases hs : 0 < seg.size.toInt
  · obtain ⟨hk0, hk1⟩ := hk hs
    have hpos : toSigned (seg.position v) = seg.position v :=
      toSigned_of_isInt ⟨by omega, hk1⟩
    have h0 := seg.pageStart_nonneg v
    have hsum : (v * pageSize : Int) + seg.pageStart v = max (v * pageSize : Int) seg.start := by
      unfold Segment.pageStart; omega
    rw [copySegment_readAt hf hs ho, hpos]
    unfold readAt
    rw [if_neg (by omega)]
    split
    · rename_i hn
      refine ⟨mem, rfl, fun _ _ => rfl, fun j => ?_⟩
      unfold Segment.copied
      rw [if_neg]
      · rfl
      · unfold Segment.count at hn
        omega
    · rename_i hn
      refine ⟨_, rfl, fun i hi => ?_, fun j => ?_⟩
      · exact overlay_of_lt (by omega)
      · rw [show (pageSize * f + seg.pageStart v : Int).toNat =
          pageSize * f + (seg.pageStart v).toNat by omega, overlay_base]
        unfold Segment.copied
        by_cases hj : (seg.pageStart v).toNat ≤ j
        · have hget : (seg.position v).toNat + (j - (seg.pageStart v).toNat) =
              (seg.inFileAddr.toInt + (v * pageSize + j - seg.start)).toNat := by
            unfold Segment.position Segment.pageStart at *
            omega
          have hcov : j - (seg.pageStart v).toNat < (seg.count v).toNat ↔
              (v * pageSize + j : Int) < seg.copyEnd v := by
            unfold Segment.count
            omega
          have hge : seg.start ≤ v * pageSize + j := by omega
          have hin : 0 ≤ seg.inFileAddr.toInt + (v * pageSize + j - seg.start) := by
            unfold Segment.position at hk0
            omega
          rw [if_pos hj, readBytes_getElem?, hget]
          unfold Segment.fileByte
          simp only [hcov, hs, hge, hin, true_and, if_true]
        · rw [if_neg hj, if_neg]
          · rfl
          · omega
  · refine ⟨mem, if_neg hs, fun _ _ => rfl, fun j => ?_⟩
    unfold Segment.copied
    rw [if_neg fun h => hs h.1]
    rfl

theorem copySegment_undefined (hs : 0 < seg.size.toInt) (ho : ¬ seg.NoOverflow v) :
    copySegment seg file v f mem = .error .undefined := by
  unfold copySegment
  rw [if_pos hs]
  by_cases hB : IsInt (v * pageSize)
  · rw [cInt_of_isInt hB, ok_bind]
    by_cases hd : seg.start ≤ v * pageSize → IsInt (v * pageSize - seg.start)
    · rw [copyOffset_eq hd, ok_bind, copyStart_eq hB, ok_bind, ← Segment.start, ← Segment.stop]
      by_cases hstop : IsInt seg.stop
      · rw [cInt_of_isInt hstop, ok_bind]
        by_cases hE : IsInt ((v + 1) * pageSize)
        · rw [cInt_of_isInt hE, ok_bind]
          by_cases he : seg.stop < (v + 1) * pageSize → IsInt (v * pageSize - seg.stop)
          · exact absurd (fun _ => ⟨hE, hstop, hd, he⟩) ho
          · obtain ⟨hlt, hni⟩ := Classical.not_imp.mp he
            unfold copyCut
            rw [if_pos hlt, cInt_of_not hni, error_bind]
        · rw [cInt_of_not hE, error_bind]
      · rw [cInt_of_not hstop, error_bind]
    · obtain ⟨hle, hni⟩ := Classical.not_imp.mp hd
      unfold copyOffset
      rw [← Segment.start, if_pos hle, cInt_of_not hni, error_bind]
  · rw [cInt_of_not hB, error_bind]

theorem copySegment_lseek (hf : f < numPhysPages) (hs : 0 < seg.size.toInt)
    (ho : seg.NoOverflow v) (hk : ¬ seg.Seeks v) :
    copySegment seg file v f mem = .error (.assertion .lseek) := by
  obtain ⟨-, -, hin⟩ := seg.bounds
  obtain ⟨-, -, hd, -⟩ := ho hs
  have hneg : toSigned (seg.position v) < 0 := by
    unfold Segment.Seeks Segment.position at hk
    unfold toSigned Segment.position IsInt at *
    split <;> omega
  rw [copySegment_readAt hf hs ho]
  unfold readAt
  rw [if_pos hneg]

/-- Where the copy writes behind the end of the frame it writes the byte right
behind it. -/
theorem Segment.Spills.of_copied {s : Segment} {a : Int} {b : UInt8} (hk : s.Seeks v)
    (ha : (v + 1) * pageSize ≤ a) (h : s.copied file v a = some b) : s.Spills file v := by
  unfold Segment.copied at h
  split at h
  · rename_i hc
    obtain ⟨hs, hst, hce⟩ := hc
    obtain ⟨hk0, -⟩ := hk hs
    unfold Segment.copyEnd at hce
    unfold Segment.position at hk0
    unfold Segment.fileByte at h
    unfold Segment.Spills Segment.fileByte
    simp only [pageSize] at *
    split at hce
    · rename_i hlt
      refine ⟨hs, by omega, hlt, ?_⟩
      split at h
      · obtain ⟨hlen, -⟩ := List.getElem?_eq_some_iff.mp h
        have hstart : s.start < s.stop := by unfold Segment.stop; omega
        rw [if_pos (by omega), List.getElem?_eq_getElem (by omega)]
        rfl
      · cases h
    · omega
  · cases h

theorem Segment.Spills.copied {s : Segment} (h : s.Spills file v) :
    ∃ b, s.copied file v ((v + 1) * pageSize) = some b := by
  obtain ⟨hs, hlo, hhi, hb⟩ := h
  have hstart : s.start < s.stop := by unfold Segment.stop; omega
  unfold Segment.copied Segment.copyEnd
  rw [if_pos hhi, if_pos ⟨hs, by omega, by simp only [pageSize] at *; omega⟩]
  exact Option.isSome_iff_exists.mp hb

/-- Inside the page the copy takes the segment's bytes and the overrun's. -/
theorem Segment.copied_in_page {s : Segment} {a : Int} (ha : a < (v + 1) * pageSize) :
    s.copied file v a = s.reachedByte file a := by
  unfold Segment.copied Segment.reachedByte Segment.copyEnd Segment.Contains Segment.Overruns
  have hstop : s.stop = s.start + s.size.toInt := rfl
  congr 1
  simp only [pageSize, eq_iff_iff] at *
  split <;> omega

end CopySegment
end Nachos

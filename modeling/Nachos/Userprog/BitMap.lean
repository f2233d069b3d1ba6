import Nachos.Lib.Bits
import Nachos.Lib.Ledger
import Nachos.Filesys.FileBytes

/-! Bitmaps (bitmap.cc): an array of bits kept in words, with the search for a
clear bit from the lowest one on. The bits of a map that has been written to a
file and fetched again are those it had. -/

namespace Nachos
open Lib

abbrev bitsInWord : Nat := 32

structure BitMap where
  numBits : Nat
  map : Nat → BitVec 32

namespace BitMap

/-- The bit that `Test` looks at. -/
def bit (b : BitMap) (i : Nat) : Bool := (b.map (i / bitsInWord)).getLsbD (i % bitsInWord)

/-- `divRoundUp(numBits, BitsInWord)`. -/
def numWords (b : BitMap) : Nat :=
  b.numBits / bitsInWord + if 0 < b.numBits % bitsInWord then 1 else 0

def setBit (b : BitMap) (i : Nat) : BitMap :=
  ⟨b.numBits, Function.update b.map (i / bitsInWord)
    (b.map (i / bitsInWord) ||| 1#32 <<< (i % bitsInWord))⟩

def clearBit (b : BitMap) (i : Nat) : BitMap :=
  ⟨b.numBits, Function.update b.map (i / bitsInWord)
    (b.map (i / bitsInWord) &&& ~~~ (1#32 <<< (i % bitsInWord)))⟩

/-- The constructor, on the words `fresh` of the new array. -/
def new (numBits : Nat) (fresh : Nat → BitVec 32) : BitMap :=
  (List.range numBits).foldl clearBit ⟨numBits, fresh⟩

/-- `BitMap::Mark`. -/
def mark (b : BitMap) (which : Int) : Except Fault BitMap :=
  if 0 ≤ which ∧ which < b.numBits then .ok (b.setBit which.toNat)
  else .error (.assertion .bitmap)

/-- `BitMap::Clear`. -/
def clear (b : BitMap) (which : Int) : Except Fault BitMap :=
  if 0 ≤ which ∧ which < b.numBits then .ok (b.clearBit which.toNat)
  else .error (.assertion .bitmap)

/-- `BitMap::Test`. -/
def test (b : BitMap) (which : Int) : Except Fault Bool :=
  if 0 ≤ which ∧ which < b.numBits then .ok (b.bit which.toNat)
  else .error (.assertion .bitmap)

/-- `BitMap::Find`. -/
def find (b : BitMap) : Int × BitMap :=
  match (List.range b.numBits).find? fun i => !b.bit i with
  | none => (-1, b)
  | some i => (i, b.setBit i)

/-- `BitMap::NumClear`. -/
def numClear (b : BitMap) : Nat := ((List.range b.numBits).filter fun i => !b.bit i).length

/-- `BitMap::FetchFrom`. -/
def fetchFrom (b : BitMap) (d : Sectors) (file : OpenFile) : Except Fault BitMap := do
  let bytes ← file.readAt d (b.numWords * 4 : Nat) 0
  .ok { b with map := fun i => wordOf (overlay (wordsMem b.map) 0 bytes) (4 * i) }

/-- `BitMap::WriteBack`. -/
def writeBack (b : BitMap) (d : Sectors) (file : OpenFile) (fresh : Nat → UInt8) :
    Except Fault Sectors := do
  let (_, d) ← file.writeAt d (wordsMem b.map) (b.numWords * 4 : Nat) 0 fresh
  .ok d

/-! ## Bits -/

variable {b : BitMap} {i j : Nat}

/-- The condition that `Test` has. -/
theorem bit_eq_true_iff :
    b.bit i = true ↔ b.map (i / bitsInWord) &&& 1#32 <<< (i % bitsInWord) ≠ 0 :=
  (and_twoPow_ne_zero _ _).symm

/-- The word of a bit is one of the array. -/
theorem div_lt_numWords (hi : i < b.numBits) : i / bitsInWord < b.numWords := by
  unfold numWords
  simp only [bitsInWord]
  split <;> omega

@[simp] theorem numBits_setBit : (b.setBit i).numBits = b.numBits := rfl

@[simp] theorem numBits_clearBit : (b.clearBit i).numBits = b.numBits := rfl

theorem getLsbD_one_shiftLeft {m k : Nat} (hm : m < 32) :
    (1#32 <<< k).getLsbD m = decide (m = k) := by
  rw [BitVec.getLsbD_shiftLeft, BitVec.getLsbD_one]
  by_cases hlt : m < k
  · simp [hlt, show m ≠ k by omega]
  · have hzero : m - k = 0 ↔ m = k := by omega
    simp [hm, hlt, hzero]

theorem mod_eq_mod_iff (hw : j / bitsInWord = i / bitsInWord) :
    j % bitsInWord = i % bitsInWord ↔ j = i := by
  simp only [bitsInWord] at *
  omega

theorem bit_setBit : (b.setBit i).bit j = (b.bit j || j == i) := by
  have hj : j % bitsInWord < 32 := Nat.mod_lt j (by decide)
  simp only [bit, setBit]
  by_cases hw : j / bitsInWord = i / bitsInWord
  · rw [hw, Function.update_self, BitVec.getLsbD_or, getLsbD_one_shiftLeft hj]
    congr 1
    rw [Bool.eq_iff_iff, decide_eq_true_eq, beq_iff_eq]
    exact mod_eq_mod_iff hw
  · have hne : (j == i) = false := beq_false_of_ne fun h => hw (by rw [h])
    rw [Function.update_of_ne hw, hne, Bool.or_false]

theorem bit_clearBit : (b.clearBit i).bit j = (b.bit j && j != i) := by
  have hj : j % bitsInWord < 32 := Nat.mod_lt j (by decide)
  simp only [bit, clearBit]
  by_cases hw : j / bitsInWord = i / bitsInWord
  · rw [hw, Function.update_self, BitVec.getLsbD_and, BitVec.getLsbD_not, getLsbD_one_shiftLeft hj,
      decide_eq_true hj, Bool.true_and]
    congr 1
    rw [Bool.eq_iff_iff, Bool.not_eq_true', decide_eq_false_iff_not, bne_iff_ne]
    exact not_congr (mod_eq_mod_iff hw)
  · have hne : (j != i) = true := bne_iff_ne.mpr fun h => hw (by rw [h])
    rw [Function.update_of_ne hw, hne, Bool.and_true]

theorem numBits_new (n : Nat) (fresh : Nat → BitVec 32) : (new n fresh).numBits = n := by
  unfold new
  generalize List.range n = is
  suffices h : ∀ b : BitMap, (is.foldl clearBit b).numBits = b.numBits from h _
  induction is with
  | nil => exact fun _ => rfl
  | cons i is ih => exact fun b => ih (b.clearBit i)

theorem bit_foldl_clearBit (is : List Nat) (b : BitMap) :
    (is.foldl clearBit b).bit j = (b.bit j && decide (j ∉ is)) := by
  induction is generalizing b with
  | nil => simp
  | cons i is ih =>
    rw [List.foldl_cons, ih, bit_clearBit, Bool.and_assoc]
    congr 1
    by_cases hji : j = i
    · simp [hji]
    · simp [hji]

theorem bit_new {n : Nat} {fresh : Nat → BitVec 32} (hj : j < n) : (new n fresh).bit j = false := by
  unfold new
  rw [bit_foldl_clearBit]
  simp [hj]

/-! ## The search -/

theorem numClear_pos (hi : i < b.numBits) (h : b.bit i = false) : 0 < b.numClear :=
  List.length_pos_of_mem (List.mem_filter.mpr ⟨List.mem_range.mpr hi, by rw [h]; rfl⟩)

/-- What `Find` returns while a bit is clear. -/
theorem find_of_clear (h : 0 < b.numClear) :
    ∃ i, i < b.numBits ∧ b.bit i = false ∧ (∀ j, j < i → b.bit j = true) ∧
      b.find = ((i : Int), b.setBit i) := by
  obtain ⟨k, hk⟩ := List.exists_mem_of_length_pos h
  cases hf : (List.range b.numBits).find? fun i => !b.bit i with
  | none =>
    have := List.find?_eq_none.mp hf k (List.mem_of_mem_filter hk)
    exact absurd (List.of_mem_filter hk) this
  | some i =>
    obtain ⟨hi, hlt, hleast⟩ := List.find?_range_eq_some.mp hf
    refine ⟨i, List.mem_range.mp hlt, by simpa using hi, fun j hj => by simpa using hleast j hj, ?_⟩
    simp only [find, hf]

/-- What `Find` returns when every bit is set. -/
theorem find_of_full (h : b.numClear = 0) : b.find = (-1, b) := by
  have hnil : (List.range b.numBits).filter (fun i => !b.bit i) = [] :=
    List.eq_nil_of_length_eq_zero h
  have hf : (List.range b.numBits).find? (fun i => !b.bit i) = none :=
    List.find?_eq_none.mpr (List.filter_eq_nil_iff.mp hnil)
  simp only [find, hf]

theorem numClear_setBit (hi : i < b.numBits) (h : b.bit i = false) :
    (b.setBit i).numClear + 1 = b.numClear := by
  have hp := filter_range_perm_cons (fun j => !b.bit j) (fun j => !(b.setBit i).bit j) hi
    (by simp [h]) fun j _ => by rw [bit_setBit, Bool.not_or]; rfl
  exact hp.length_eq.symm

/-! ## On a file -/

/-- Bit `i` of a map kept in the memory `m`. -/
def bitOf (m : Nat → UInt8) (i : Nat) : Bool :=
  (wordOf m (4 * (i / bitsInWord))).getLsbD (i % bitsInWord)

theorem bitOf_congr {m m' : Nat → UInt8} {n : Nat} (hi : i < bitsInWord * n)
    (h : ∀ j, j < 4 * n → m j = m' j) : bitOf m i = bitOf m' i := by
  have hw : i / bitsInWord < n := Nat.div_lt_of_lt_mul hi
  unfold bitOf
  rw [wordOf_congr fun k hk => h (4 * (i / bitsInWord) + k) (by omega)]

theorem bitOf_wordsMem : bitOf (wordsMem b.map) i = b.bit i := by
  unfold bitOf bit
  rw [wordOf_wordsMem]

theorem numBits_le : b.numBits ≤ bitsInWord * b.numWords := by
  unfold numWords
  simp only [bitsInWord]
  split <;> omega

section File
variable {d : Sectors} {file : OpenFile}

/-- A map fetched from a file that is long enough has the bits the file has. -/
theorem fetchFrom_front (hs : file.hdr.Sound) (hlen : b.numWords * 4 ≤ file.hdr.length) :
    ∃ b', b.fetchFrom d file = .ok b' ∧ b'.numBits = b.numBits ∧
      ∀ i, i < b.numBits → b'.bit i = bitOf (file.hdr.byte d) i := by
  have hle := b.numBits_le
  rw [fetchFrom, OpenFile.readAt_front hs hlen, ok_bind]
  refine ⟨_, rfl, rfl, fun i hi => ?_⟩
  refine bitOf_congr (n := b.numWords) (Nat.lt_of_lt_of_le hi hle) fun j hj => ?_
  rw [overlay_bytesAt, if_pos (by omega), Nat.sub_zero, Nat.zero_add]

/-- A map written back leaves its bits in the file. -/
theorem writeBack_front (hs : file.hdr.Sound) (fresh : Nat → UInt8)
    (hlen : b.numWords * 4 ≤ file.hdr.length) :
    ∃ d', b.writeBack d file fresh = .ok d' ∧
      (∀ i, i < b.numBits → bitOf (file.hdr.byte d') i = b.bit i) ∧
      ∀ s, file.hdr.Outside s → d' s = d s := by
  obtain ⟨d', hd', hbytes, hout⟩ :=
    OpenFile.writeAt_front (d := d) hs (wordsMem b.map) fresh hlen
  refine ⟨d', by rw [writeBack, hd', ok_bind], fun i hi => ?_, hout⟩
  have hlt := Nat.lt_of_lt_of_le hi b.numBits_le
  rw [bitOf_congr hlt fun j hj => hbytes j (by omega), bitOf_wordsMem]

end File
end BitMap
end Nachos

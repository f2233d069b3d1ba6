import Mathlib.Data.List.Find
import Nachos.Lib.Ledger
import Nachos.Filesys.FileBytes

/-! The directory (directory.cc): a table of entries, kept in memory as it is on
the disk. An entry is found by the first nine characters of a name; removing it
only clears its flag. -/

namespace Nachos
open Lib

abbrev fileNameMaxLen : Nat := 9

/-- `sizeof(DirectoryEntry)`: the flag at 0, the sector at 4, the name at 8. -/
abbrev entrySize : Nat := 20

/-- `strncmp(s, t, n) == 0`. -/
def strncmpEq (s t : Nat → UInt8) : Nat → Bool
  | 0 => true
  | n + 1 => s 0 == t 0 && (s 0 == 0 || strncmpEq (fun i => s (i + 1)) (fun i => t (i + 1)) n)

/-- The bytes that `strncpy(_, s, n)` stores. -/
def strncpy (s : Nat → UInt8) : Nat → List UInt8
  | 0 => []
  | n + 1 =>
    if s 0 = 0 then List.replicate (n + 1) 0 else s 0 :: strncpy (fun i => s (i + 1)) n

structure Directory where
  tableSize : Nat
  table : Nat → UInt8

namespace Directory

/-- `table[i].inUse`. -/
def inUse (table : Nat → UInt8) (i : Nat) : Bool := table (entrySize * i) != 0

/-- `table[i].sector`. -/
def sector (table : Nat → UInt8) (i : Nat) : Int := (wordOf table (entrySize * i + 4)).toInt

/-- `table[i].name`. -/
def name (table : Nat → UInt8) (i : Nat) : Nat → UInt8 := fun j => table (entrySize * i + 8 + j)

def setInUse (table : Nat → UInt8) (i : Nat) (flag : UInt8) : Nat → UInt8 :=
  overlay table (entrySize * i) [flag]

def setName (table : Nat → UInt8) (i : Nat) (name : Nat → UInt8) : Nat → UInt8 :=
  overlay table (entrySize * i + 8) (strncpy name fileNameMaxLen)

def setSector (table : Nat → UInt8) (i : Nat) (newSector : Int) : Nat → UInt8 :=
  overlay table (entrySize * i + 4) (wordBytes (.ofInt 32 newSector))

/-- The constructor, on the memory `fresh` of the new table. -/
def new (size : Nat) (fresh : Nat → UInt8) : Directory :=
  ⟨size, (List.range size).foldl (fun table i => setInUse table i 0) fresh⟩

/-- `Directory::FetchFrom`. -/
def fetchFrom (dir : Directory) (d : Sectors) (file : OpenFile) : Except Fault Directory := do
  let bytes ← file.readAt d (dir.tableSize * entrySize : Nat) 0
  .ok { dir with table := overlay dir.table 0 bytes }

/-- `Directory::WriteBack`. -/
def writeBack (dir : Directory) (d : Sectors) (file : OpenFile) (fresh : Nat → UInt8) :
    Except Fault Sectors := do
  let (_, d) ← file.writeAt d dir.table (dir.tableSize * entrySize : Nat) 0 fresh
  .ok d

/-- `Directory::FindIndex`; `none` is -1. -/
def findIndex (dir : Directory) (name : Nat → UInt8) : Option Nat :=
  (List.range dir.tableSize).find? fun i =>
    inUse dir.table i && strncmpEq (Directory.name dir.table i) name fileNameMaxLen

/-- `Directory::Find`. -/
def find (dir : Directory) (name : Nat → UInt8) : Int :=
  match dir.findIndex name with
  | some i => sector dir.table i
  | none => -1

/-- `Directory::Add`. -/
def add (dir : Directory) (name : Nat → UInt8) (newSector : Int) : Bool × Directory :=
  match dir.findIndex name with
  | some _ => (false, dir)
  | none =>
    match (List.range dir.tableSize).find? fun i => !inUse dir.table i with
    | none => (false, dir)
    | some i =>
      let table := setName (setInUse dir.table i 1) i name
      (true, { dir with table := setSector table i newSector })

/-- `Directory::Remove`. -/
def remove (dir : Directory) (name : Nat → UInt8) : Bool × Directory :=
  match dir.findIndex name with
  | none => (false, dir)
  | some i => (true, { dir with table := setInUse dir.table i 0 })

/-! ## The entries in use -/

/-- The header sectors of the entries in use, of a table of `n` entries. -/
def entries (table : Nat → UInt8) (n : Nat) : List Int :=
  ((List.range n).filter (inUse table)).map (sector table)

variable {t t' : Nat → UInt8} {dir : Directory} {i j n : Nat}

theorem strncpy_length (s : Nat → UInt8) (n : Nat) : (strncpy s n).length = n := by
  induction n generalizing s with
  | zero => rfl
  | succ n ih =>
    unfold strncpy
    split
    · rw [List.length_replicate]
    · rw [List.length_cons, ih]

/-- Entry `j` is the same in both tables. -/
def SameEntry (t t' : Nat → UInt8) (j : Nat) : Prop :=
  ∀ k, k < entrySize → t' (entrySize * j + k) = t (entrySize * j + k)

theorem SameEntry.inUse (h : SameEntry t t' j) : inUse t' j = inUse t j := by
  have h0 := h 0 (by decide)
  unfold Directory.inUse
  rw [Nat.add_zero] at h0
  rw [h0]

theorem SameEntry.sector (h : SameEntry t t' j) : sector t' j = sector t j := by
  unfold Directory.sector
  refine congrArg BitVec.toInt (wordOf_congr fun k hk => ?_)
  rw [Nat.add_assoc]
  exact h (4 + k) (by simp only [entrySize]; omega)

theorem sameEntry_overlay {q : Nat} {bs : List UInt8} (hq : q + bs.length ≤ entrySize)
    (hji : j ≠ i) : SameEntry t (overlay t (entrySize * i + q) bs) j := by
  intro k hk
  by_cases hlt : j < i
  · exact overlay_of_lt (by simp only [entrySize] at *; omega)
  · exact overlay_of_le (by simp only [entrySize] at *; omega)

theorem SameEntry.trans {t'' : Nat → UInt8} (h : SameEntry t t' j) (h' : SameEntry t' t'' j) :
    SameEntry t t'' j := fun k hk => (h' k hk).trans (h k hk)

theorem inUse_setInUse (flag : UInt8) : inUse (setInUse t i flag) i = (flag != 0) := by
  unfold inUse setInUse overlay
  simp

theorem sameEntry_setInUse (flag : UInt8) (hji : j ≠ i) : SameEntry t (setInUse t i flag) j :=
  sameEntry_overlay (q := 0) (by rw [List.length_singleton]; decide) hji

/-- The loop of the constructor. -/
theorem inUse_foldl {is : List Nat} (h : j ∈ is ∨ inUse t j = false) :
    inUse (is.foldl (fun t i => setInUse t i 0) t) j = false := by
  induction is generalizing t with
  | nil => exact h.resolve_left (by simp)
  | cons i is ih =>
    refine ih ?_
    by_cases hji : j = i
    · right
      rw [hji]
      exact inUse_setInUse 0
    · rcases h with h | h
      · exact Or.inl ((List.mem_cons.mp h).resolve_left hji)
      · right
        rw [← h]
        exact (sameEntry_setInUse 0 hji).inUse

theorem inUse_new (fresh : Nat → UInt8) (hj : j < n) : inUse (new n fresh).table j = false :=
  inUse_foldl (Or.inl (List.mem_range.mpr hj))

theorem entries_new (n : Nat) (fresh : Nat → UInt8) : entries (new n fresh).table n = [] := by
  unfold entries
  rw [List.filter_eq_nil_iff.mpr fun j hj => ?_, List.map_nil]
  rw [inUse_new fresh (List.mem_range.mp hj)]
  exact Bool.false_ne_true

theorem entries_congr (h : ∀ j, j < entrySize * n → t' j = t j) : entries t' n = entries t n := by
  have hsame : ∀ j, j < n → SameEntry t t' j := fun j hj k hk =>
    h _ (by simp only [entrySize] at *; omega)
  unfold entries
  rw [List.filter_congr fun j hj => (hsame j (List.mem_range.mp hj)).inUse]
  exact List.map_congr_left fun j hj =>
    (hsame j (List.mem_range.mp (List.mem_of_mem_filter hj))).sector

theorem entries_length_le (t : Nat → UInt8) (n : Nat) : (entries t n).length ≤ n := by
  unfold entries
  rw [List.length_map]
  exact (List.length_filter_le _ _).trans (Nat.le_of_eq List.length_range)

/-- Two tables that differ in entry `i` only, which is in use in the second one. -/
theorem entries_perm_cons (hi : i < n) (hfree : inUse t i = false) (hused : inUse t' i = true)
    (hsame : ∀ j, j ≠ i → SameEntry t t' j) :
    (entries t' n).Perm (sector t' i :: entries t n) := by
  have hflag : ∀ j, j < n → inUse t j = (inUse t' j && j != i) := by
    intro j _
    by_cases hji : j = i
    · rw [hji, hfree]
      simp
    · rw [(hsame j hji).inUse]
      simp [hji]
  have hrest : entries t n = ((List.range n).filter (inUse t)).map (sector t') := by
    refine List.map_congr_left fun j hj => ?_
    have hji : j ≠ i := by
      intro h
      have := List.of_mem_filter hj
      rw [h, hfree] at this
      cases this
    exact (hsame j hji).sector.symm
  rw [hrest]
  exact (filter_range_perm_cons (inUse t') (inUse t) hi hused hflag).map (sector t')

/-- The table after `Add` has filled entry `i`. -/
def added (t : Nat → UInt8) (i : Nat) (nm : Nat → UInt8) (s : Int) : Nat → UInt8 :=
  setSector (setName (setInUse t i 1) i nm) i s

section Added
variable {nm : Nat → UInt8} {s : Int}

theorem inUse_added : inUse (added t i nm s) i = true := by
  unfold inUse added setSector setName
  rw [overlay_of_lt (by omega), overlay_of_lt (by omega)]
  exact inUse_setInUse 1

theorem sector_added (hs : IsInt s) : sector (added t i nm s) i = s := by
  unfold sector added
  have hb : HasBytes (setSector (setName (setInUse t i 1) i nm) i s) (entrySize * i + 4)
      (wordBytes (.ofInt 32 s)) := hasBytes_overlay
  exact (congrArg BitVec.toInt (wordOf_wordBytes fun k hk => hb k hk)).trans (toInt_ofInt hs)

theorem name_added : HasBytes (name (added t i nm s) i) 0 (strncpy nm fileNameMaxLen) := by
  intro k hk
  have hb : HasBytes (setName (setInUse t i 1) i nm) (entrySize * i + 8)
      (strncpy nm fileNameMaxLen) := hasBytes_overlay
  rw [← hb k hk, Nat.zero_add]
  unfold name added setSector
  rw [overlay_of_le (by rw [wordBytes_length]; omega)]

theorem sameEntry_added (hji : j ≠ i) : SameEntry t (added t i nm s) j :=
  ((sameEntry_setInUse 1 hji).trans
    (sameEntry_overlay (by rw [strncpy_length]; decide) hji)).trans
    (sameEntry_overlay (by rw [wordBytes_length]; decide) hji)

/-- What `Add` has done when it succeeds. -/
theorem add_inv {dir' : Directory} (h : dir.add nm s = (true, dir')) :
    ∃ i, (i < dir.tableSize ∧ inUse dir.table i = false) ∧ dir.findIndex nm = none ∧
      dir' = { dir with table := added dir.table i nm s } := by
  unfold add at h
  split at h
  · cases h
  · rename_i hnone
    split at h
    · cases h
    · rename_i i hf
      obtain ⟨hfree, hmem, -⟩ := List.find?_range_eq_some.mp hf
      cases h
      exact ⟨i, ⟨List.mem_range.mp hmem, by simpa using hfree⟩, hnone, rfl⟩

theorem entries_add {dir' : Directory} (hs : IsInt s) (h : dir.add nm s = (true, dir')) :
    dir'.tableSize = dir.tableSize ∧
      (entries dir'.table dir.tableSize).Perm (s :: entries dir.table dir.tableSize) := by
  obtain ⟨i, hi, -, rfl⟩ := add_inv h
  have hused : inUse (added dir.table i nm s) i = true := inUse_added
  have hp := entries_perm_cons hi.1 hi.2 hused fun j hji => sameEntry_added hji
  rw [sector_added hs] at hp
  exact ⟨rfl, hp⟩

end Added

/-- `Find` and `Remove` of a name that is in the directory. -/
theorem remove_eq {nm : Nat → UInt8} (h : dir.findIndex nm = some i) :
    dir.find nm = sector dir.table i ∧
      ∃ dir', dir.remove nm = (true, dir') ∧ dir'.tableSize = dir.tableSize ∧
        (entries dir.table dir.tableSize).Perm
          (dir.find nm :: entries dir'.table dir.tableSize) := by
  obtain ⟨hp, hmem, -⟩ := List.find?_range_eq_some.mp h
  have hfind : dir.find nm = sector dir.table i := by
    unfold find
    rw [h]
  refine ⟨hfind, { dir with table := setInUse dir.table i 0 }, by unfold remove; rw [h], rfl, ?_⟩
  rw [hfind]
  refine entries_perm_cons (List.mem_range.mp hmem) ?_ (Bool.and_eq_true_iff.mp hp).1
    fun j hji k hk => (sameEntry_setInUse 0 hji k hk).symm
  exact inUse_setInUse 0

/-! ## Names -/

theorem strncmpEq_congr {s s' u : Nat → UInt8} {n : Nat} (h : ∀ k, k < n → s k = s' k) :
    strncmpEq s u n = strncmpEq s' u n := by
  induction n generalizing s s' u with
  | zero => rfl
  | succ n ih =>
    unfold strncmpEq
    rw [h 0 (by omega), ih fun k hk => h (k + 1) (by omega)]

/-- A name compares equal to its copy. -/
theorem strncmpEq_strncpy {s u : Nat → UInt8} {n : Nat} (h : HasBytes u 0 (strncpy s n)) :
    strncmpEq u s n = true := by
  induction n generalizing s u with
  | zero => rfl
  | succ n ih =>
    have h0 := h 0 (by rw [strncpy_length]; omega)
    unfold strncpy at h h0
    unfold strncmpEq
    by_cases hs : s 0 = 0
    · rw [if_pos hs, List.getElem?_replicate_of_lt (by omega)] at h0
      simp only [Nat.add_zero, Option.some.injEq] at h0
      simp [h0, hs]
    · rw [if_neg hs] at h h0
      have hrest : HasBytes (fun k => u (k + 1)) 0 (strncpy (fun k => s (k + 1)) n) := by
        intro k hk
        have := h (k + 1) (by rw [List.length_cons]; omega)
        simpa using this
      have hhead : u 0 = s 0 := by simpa using h0
      simp [hhead, ih hrest]

/-- The entry is in use under a name that compares equal to `nm`. -/
def Matches (table nm : Nat → UInt8) (i : Nat) : Bool :=
  inUse table i && strncmpEq (name table i) nm fileNameMaxLen

theorem SameEntry.matches (h : SameEntry t t' j) (nm : Nat → UInt8) :
    Matches t' nm j = Matches t nm j := by
  unfold Matches
  rw [h.inUse]
  congr 1
  refine strncmpEq_congr fun k hk => ?_
  unfold name
  rw [Nat.add_assoc]
  exact h (8 + k) (by simp only [entrySize, fileNameMaxLen] at *; omega)

theorem find_mem {nm : Nat → UInt8} (h : dir.findIndex nm = some i) :
    dir.find nm ∈ entries dir.table dir.tableSize := by
  obtain ⟨hp, hmem, -⟩ := List.find?_range_eq_some.mp h
  rw [(remove_eq h).1]
  exact List.mem_map_of_mem (List.mem_filter.mpr ⟨hmem, (Bool.and_eq_true_iff.mp hp).1⟩)

theorem findIndex_of_entries_nil {nm : Nat → UInt8} (h : entries dir.table dir.tableSize = []) :
    dir.findIndex nm = none := by
  cases hf : dir.findIndex nm with
  | none => rfl
  | some i =>
    have := find_mem hf
    rw [h] at this
    cases this

/-- `Add` succeeds for a new name while an entry is free. -/
theorem add_of_room {nm : Nat → UInt8} (s : Int) (hnew : dir.findIndex nm = none)
    (hroom : (entries dir.table dir.tableSize).length < dir.tableSize) :
    ∃ dir', dir.add nm s = (true, dir') := by
  unfold add
  rw [hnew]
  cases hf : (List.range dir.tableSize).find? fun i => !inUse dir.table i with
  | some i => exact ⟨_, rfl⟩
  | none =>
    have hall : (List.range dir.tableSize).filter (inUse dir.table) = List.range dir.tableSize := by
      refine List.filter_eq_self.mpr fun k hk => ?_
      simpa using List.find?_eq_none.mp hf k hk
    unfold entries at hroom
    rw [hall, List.length_map, List.length_range] at hroom
    omega

/-- What has been added under a name is found under it. -/
theorem find_add {dir' : Directory} {nm : Nat → UInt8} {s : Int} (hs : IsInt s)
    (h : dir.add nm s = (true, dir')) : dir'.find nm = s := by
  obtain ⟨i, hi, hnone, rfl⟩ := add_inv h
  have hsame : ∀ j, j ≠ i → SameEntry dir.table (added dir.table i nm s) j :=
    fun j hji => sameEntry_added hji
  have hmatch : Matches (added dir.table i nm s) nm i = true := by
    unfold Matches
    rw [inUse_added, Bool.true_and]
    exact strncmpEq_strncpy name_added
  have hfind : (List.range dir.tableSize).find? (Matches (added dir.table i nm s) nm) = some i := by
    refine List.find?_range_eq_some.mpr ⟨hmatch, List.mem_range.mpr hi.1, fun j hj => ?_⟩
    have := List.find?_eq_none.mp hnone j (List.mem_range.mpr (by omega))
    rw [(hsame j (by omega)).matches, Bool.not_eq_true']
    exact Bool.eq_false_iff.mpr this
  have hindex : Directory.findIndex ⟨dir.tableSize, added dir.table i nm s⟩ nm = some i := hfind
  rw [(remove_eq hindex).1]
  exact sector_added hs

/-! ## On a file -/

/-- The same entries, in a table of the same size. -/
structure Agrees (dir dir' : Directory) : Prop where
  size : dir'.tableSize = dir.tableSize
  table : ∀ j, j < dir.tableSize * entrySize → dir'.table j = dir.table j

theorem Agrees.entries {dir' : Directory} (h : Agrees dir dir') :
    entries dir'.table dir.tableSize = entries dir.table dir.tableSize :=
  entries_congr fun j hj => h.table j (by rw [Nat.mul_comm]; exact hj)

theorem Agrees.sameEntry {dir' : Directory} (h : Agrees dir dir') (hj : j < dir.tableSize) :
    SameEntry dir.table dir'.table j := fun k hk =>
  h.table _ (by simp only [entrySize] at *; omega)

theorem Agrees.findIndex {dir' : Directory} (h : Agrees dir dir') (nm : Nat → UInt8) :
    dir'.findIndex nm = dir.findIndex nm := by
  unfold Directory.findIndex
  rw [h.size]
  refine List.find?_congr fun j hj => ?_
  exact (h.sameEntry (List.mem_range.mp hj)).matches nm

theorem Agrees.find {dir' : Directory} (h : Agrees dir dir') (nm : Nat → UInt8) :
    dir'.find nm = dir.find nm := by
  unfold Directory.find
  rw [h.findIndex]
  cases hf : dir.findIndex nm with
  | none => rfl
  | some i =>
    obtain ⟨-, hmem, -⟩ := List.find?_range_eq_some.mp hf
    exact (h.sameEntry (List.mem_range.mp hmem)).sector

section File
variable {d : Sectors} {file : OpenFile}

theorem fetchFrom_front (hs : file.hdr.Sound)
    (hlen : dir.tableSize * entrySize ≤ file.hdr.length) :
    ∃ dir', dir.fetchFrom d file = .ok dir' ∧ Agrees ⟨dir.tableSize, file.hdr.byte d⟩ dir' := by
  rw [fetchFrom, OpenFile.readAt_front hs hlen, ok_bind]
  refine ⟨_, rfl, rfl, fun j hj => ?_⟩
  dsimp only at hj ⊢
  rw [overlay_bytesAt, if_pos (by omega), Nat.sub_zero, Nat.zero_add]

theorem writeBack_front (hs : file.hdr.Sound) (fresh : Nat → UInt8)
    (hlen : dir.tableSize * entrySize ≤ file.hdr.length) :
    ∃ d', dir.writeBack d file fresh = .ok d' ∧
      Agrees dir ⟨dir.tableSize, file.hdr.byte d'⟩ ∧
      ∀ s, file.hdr.Outside s → d' s = d s := by
  obtain ⟨d', hd', hbytes, hout⟩ := OpenFile.writeAt_front (d := d) hs dir.table fresh hlen
  exact ⟨d', by rw [writeBack, hd', ok_bind], ⟨rfl, hbytes⟩, hout⟩

end File
end Directory
end Nachos

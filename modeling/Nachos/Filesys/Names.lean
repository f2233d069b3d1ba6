import Nachos.Filesys.Directory

/-! The directory as a finite map. Names are compared up to their ninth character,
which is all a name has; so an entry stands for the name it was added under, and
no two entries in use stand for the same one. What is found under a name is then
told by the past calls alone. -/

namespace Nachos
open Lib

/-! ## Strings -/

/-- The characters of the string at `s`, the first `n` at most. -/
def strChars (s : Nat → UInt8) : Nat → List UInt8
  | 0 => []
  | n + 1 => if s 0 = 0 then [] else s 0 :: strChars (fun i => s (i + 1)) n

theorem strncmpEq_iff {s t : Nat → UInt8} {n : Nat} :
    strncmpEq s t n = true ↔ strChars s n = strChars t n := by
  induction n generalizing s t with
  | zero => simp [strncmpEq, strChars]
  | succ n ih =>
    unfold strncmpEq strChars
    rw [Bool.and_eq_true, Bool.or_eq_true, beq_iff_eq, beq_iff_eq, ih]
    by_cases hs : s 0 = 0
    · rw [if_pos hs, hs]
      by_cases ht : t 0 = 0
      · simp [ht]
      · simp [ht, Ne.symm ht]
    · rw [if_neg hs]
      by_cases ht : t 0 = 0
      · simp [ht, hs]
      · simp [ht, hs]

theorem strChars_of_hasBytes {s : Nat → UInt8} {cs : List UInt8} {n : Nat} (hcs : 0 ∉ cs)
    (hn : cs.length ≤ n) (h : HasBytes s 0 (cs ++ [0])) : strChars s n = cs := by
  induction cs generalizing s n with
  | nil =>
    cases n with
    | zero => rfl
    | succ n =>
      have h0 : s 0 = 0 := by simpa using h 0 (by simp)
      rw [strChars, if_pos h0]
  | cons c cs ih =>
    obtain ⟨hc, hrest⟩ : ¬ 0 = c ∧ 0 ∉ cs := by simpa using hcs
    cases n with
    | zero => simp at hn
    | succ n =>
      have h0 : s 0 = c := by simpa using h 0 (by simp)
      have htail : HasBytes (fun i => s (i + 1)) 0 (cs ++ [0]) := by
        intro i hi
        have := h (i + 1) (by simpa using hi)
        simpa using this
      rw [strChars, h0, if_neg (Ne.symm hc), ih hrest (by simpa using hn) htail]

/-! ## Names -/

structure EntryName where
  chars : List UInt8
  short : chars.length ≤ fileNameMaxLen
  nonzero : 0 ∉ chars
  deriving DecidableEq

namespace EntryName

/-- The name as the argument of a call: a string, with anything behind its end. -/
def arg (nm : EntryName) (behind : Nat → UInt8) : Nat → UInt8 := overlay behind 0 (nm.chars ++ [0])

theorem strChars_arg (nm : EntryName) (behind : Nat → UInt8) :
    strChars (nm.arg behind) fileNameMaxLen = nm.chars :=
  strChars_of_hasBytes nm.nonzero nm.short hasBytes_overlay

theorem chars_inj {nm nm' : EntryName} (h : nm.chars = nm'.chars) : nm = nm' := by
  cases nm
  cases nm'
  cases h
  rfl

end EntryName

namespace Directory

/-- The name of entry `i`. -/
def nameAt (table : Nat → UInt8) (i : Nat) : List UInt8 := strChars (name table i) fileNameMaxLen

/-- Entry `i` is in use under the name. -/
def Holds (dir : Directory) (nm : EntryName) (i : Nat) : Prop :=
  i < dir.tableSize ∧ inUse dir.table i = true ∧ nameAt dir.table i = nm.chars

/-- No two entries in use have the same name. -/
def Distinct (dir : Directory) : Prop :=
  ∀ i j, i < dir.tableSize → j < dir.tableSize → inUse dir.table i = true →
    inUse dir.table j = true → nameAt dir.table i = nameAt dir.table j → i = j

def Full (dir : Directory) : Prop := ∀ i, i < dir.tableSize → inUse dir.table i = true

/-- What the directory has under the name. -/
def lookup (dir : Directory) (nm : EntryName) : Option Int :=
  (dir.findIndex (nm.arg fun _ => 0)).map (sector dir.table)

variable {dir dir' : Directory} {t t' : Nat → UInt8} {nm nm' : EntryName} {i j : Nat} {s : Int}
  {b : Nat → UInt8}

theorem matches_iff : Matches t (nm.arg b) i = true ↔
    inUse t i = true ∧ nameAt t i = nm.chars := by
  unfold Matches nameAt
  rw [Bool.and_eq_true, strncmpEq_iff, nm.strChars_arg]

theorem SameEntry.nameAt (h : SameEntry t t' j) : nameAt t' j = nameAt t j := by
  unfold Directory.nameAt
  refine strncmpEq_iff.mp ?_
  have hself : strncmpEq (name t j) (name t j) fileNameMaxLen = true := strncmpEq_iff.mpr rfl
  rw [← hself]
  refine strncmpEq_congr fun k hk => ?_
  unfold name
  rw [Nat.add_assoc]
  exact h (8 + k) (by simp only [entrySize, fileNameMaxLen] at *; omega)

theorem findIndex_eq_none : dir.findIndex (nm.arg b) = none ↔ ∀ i, ¬ dir.Holds nm i := by
  constructor
  · intro h i ⟨hi, hm⟩
    exact List.find?_eq_none.mp h i (List.mem_range.mpr hi) (matches_iff.mpr hm)
  · intro h
    refine List.find?_eq_none.mpr fun i hi hm => ?_
    exact h i ⟨List.mem_range.mp hi, matches_iff.mp hm⟩

theorem holds_of_findIndex (h : dir.findIndex (nm.arg b) = some i) : dir.Holds nm i := by
  obtain ⟨hm, hi, -⟩ := List.find?_range_eq_some.mp h
  exact ⟨List.mem_range.mp hi, matches_iff.mp hm⟩

namespace Distinct

theorem holds_unique (hD : dir.Distinct) (h : dir.Holds nm i) (h' : dir.Holds nm j) : i = j :=
  hD i j h.1 h'.1 h.2.1 h'.2.1 (h.2.2.trans h'.2.2.symm)

theorem findIndex_eq_some (hD : dir.Distinct) :
    dir.findIndex (nm.arg b) = some i ↔ dir.Holds nm i := by
  refine ⟨holds_of_findIndex, fun h => ?_⟩
  cases hf : dir.findIndex (nm.arg b) with
  | none => exact absurd h (findIndex_eq_none.mp hf i)
  | some j => rw [hD.holds_unique (holds_of_findIndex hf) h]

end Distinct

/-- What lies behind the name makes no difference. -/
theorem findIndex_arg : dir.findIndex (nm.arg b) = dir.findIndex (nm.arg fun _ => 0) := by
  refine List.find?_congr fun i _ => Bool.eq_iff_iff.mpr ?_
  exact matches_iff.trans matches_iff.symm

theorem find_eq_lookup : dir.find (nm.arg b) = (dir.lookup nm).getD (-1) := by
  unfold find lookup
  rw [findIndex_arg]
  cases dir.findIndex (nm.arg fun _ => 0) with
  | none => rfl
  | some i => rfl

theorem lookup_eq_none : dir.lookup nm = none ↔ ∀ i, ¬ dir.Holds nm i := by
  unfold lookup
  rw [Option.map_eq_none_iff]
  exact findIndex_eq_none

theorem Distinct.lookup_eq_some (hD : dir.Distinct) :
    dir.lookup nm = some s ↔ ∃ i, dir.Holds nm i ∧ sector dir.table i = s := by
  unfold lookup
  rw [Option.map_eq_some_iff]
  exact exists_congr fun i => and_congr_left' hD.findIndex_eq_some

/-- Two directories that hold the same names in the same sectors. -/
theorem lookup_congr (hD : dir.Distinct) (hD' : dir'.Distinct)
    (h : ∀ i, dir'.Holds nm i ↔ dir.Holds nm i)
    (hs : ∀ i, dir.Holds nm i → sector dir'.table i = sector dir.table i) :
    dir'.lookup nm = dir.lookup nm := by
  cases hl : dir.lookup nm with
  | none =>
    refine lookup_eq_none.mpr fun i hi => ?_
    exact lookup_eq_none.mp hl i ((h i).mp hi)
  | some s =>
    obtain ⟨i, hi, hsec⟩ := hD.lookup_eq_some.mp hl
    exact hD'.lookup_eq_some.mpr ⟨i, (h i).mpr hi, (hs i hi).trans hsec⟩

/-! ## Add and Remove -/

theorem add_eq_false : (dir.add (nm.arg b) s).1 = false ↔ dir.lookup nm ≠ none ∨ dir.Full := by
  unfold lookup add
  rw [findIndex_arg]
  cases hf : dir.findIndex (nm.arg fun _ => 0) with
  | some i => simp
  | none =>
    cases hr : (List.range dir.tableSize).find? fun i => !inUse dir.table i with
    | none =>
      refine iff_of_true rfl (Or.inr fun i hi => ?_)
      simpa using List.find?_eq_none.mp hr i (List.mem_range.mpr hi)
    | some i =>
      obtain ⟨hfree, hi, -⟩ := List.find?_range_eq_some.mp hr
      refine iff_of_false (by simp) (not_or.mpr ⟨by simp, fun hfull => ?_⟩)
      rw [hfull i (List.mem_range.mp hi)] at hfree
      cases hfree

theorem add_of_false {a : Nat → UInt8} (h : dir.add a s = (false, dir')) : dir' = dir := by
  unfold add at h
  split at h
  · cases h; rfl
  · split at h
    · cases h; rfl
    · cases h

theorem nameAt_added (a : Nat → UInt8) :
    nameAt (added t i a s) i = strChars a fileNameMaxLen :=
  strncmpEq_iff.mp (strncmpEq_strncpy name_added)

section Added
variable (hi : i < dir.tableSize ∧ inUse dir.table i = false) (hnew : ∀ j, ¬ dir.Holds nm j)
include hi hnew

/-- The entries after `Add` has filled entry `i`: it holds the new name, and the
others hold what they did. -/
theorem holds_added : Holds ⟨dir.tableSize, added dir.table i (nm.arg b) s⟩ nm' j ↔
    if nm' = nm then j = i else dir.Holds nm' j := by
  have hself := nameAt_added (t := dir.table) (i := i) (s := s) (nm.arg b)
  rw [nm.strChars_arg] at hself
  unfold Holds
  dsimp only
  by_cases hji : j = i
  · subst hji
    rw [inUse_added, hself, hi.2]
    by_cases hnm : nm' = nm
    · simp [hnm, hi.1]
    · rw [if_neg hnm]
      exact iff_of_false (fun h => hnm (EntryName.chars_inj h.2.2.symm)) (by simp)
  · have hsame : SameEntry dir.table (added dir.table i (nm.arg b) s) j := sameEntry_added hji
    rw [hsame.inUse, hsame.nameAt]
    by_cases hnm : nm' = nm
    · subst hnm
      rw [if_pos rfl]
      exact iff_of_false (hnew j) hji
    · rw [if_neg hnm]

omit hi in
theorem Distinct.added (hD : dir.Distinct) :
    Distinct ⟨dir.tableSize, added dir.table i (nm.arg b) s⟩ := by
  have hself := nameAt_added (t := dir.table) (i := i) (s := s) (nm.arg b)
  rw [nm.strChars_arg] at hself
  have hsame : ∀ k, k ≠ i → SameEntry dir.table (Directory.added dir.table i (nm.arg b) s) k :=
    fun k hk => sameEntry_added hk
  intro j k hj hk huj huk hname
  dsimp only at hj hk huj huk hname
  by_cases hji : j = i
  · by_cases hki : k = i
    · rw [hji, hki]
    · rw [hji, hself, (hsame k hki).nameAt] at hname
      rw [(hsame k hki).inUse] at huk
      exact absurd ⟨hk, huk, hname.symm⟩ (hnew k)
  · rw [(hsame j hji).inUse] at huj
    rw [(hsame j hji).nameAt] at hname
    by_cases hki : k = i
    · rw [hki, hself] at hname
      exact absurd ⟨hj, huj, hname⟩ (hnew j)
    · rw [(hsame k hki).inUse] at huk
      rw [(hsame k hki).nameAt] at hname
      exact hD j k hj hk huj huk hname

end Added

/-- A successful `Add` enters the name, and leaves the others alone. -/
theorem Distinct.add (hD : dir.Distinct) (hs : IsInt s)
    (h : dir.add (nm.arg b) s = (true, dir')) :
    dir'.tableSize = dir.tableSize ∧ dir'.Distinct ∧
      ∀ nm', dir'.lookup nm' = if nm = nm' then some s else dir.lookup nm' := by
  obtain ⟨i, hi, hnone, rfl⟩ := add_inv h
  have hnew := findIndex_eq_none.mp hnone
  have hD' := hD.added (b := b) (s := s) (i := i) hnew
  refine ⟨rfl, hD', fun nm' => ?_⟩
  by_cases hnm : nm = nm'
  · subst hnm
    rw [if_pos rfl]
    refine hD'.lookup_eq_some.mpr ⟨i, ?_, sector_added hs⟩
    rw [holds_added hi hnew, if_pos rfl]
  · rw [if_neg hnm]
    refine lookup_congr hD hD' (fun j => ?_) fun j hj => ?_
    · rw [holds_added hi hnew, if_neg (Ne.symm hnm)]
    · refine SameEntry.sector (sameEntry_added ?_)
      intro hji
      rw [hji, Holds, hi.2] at hj
      cases hj.2.1

section Removed
variable (hD : dir.Distinct) (hi : dir.Holds nm i)
include hD hi

/-- The entries after `Remove` has cleared the flag of entry `i`. -/
theorem holds_removed : Holds ⟨dir.tableSize, setInUse dir.table i 0⟩ nm' j ↔
    nm' ≠ nm ∧ dir.Holds nm' j := by
  unfold Holds
  dsimp only
  by_cases hji : j = i
  · subst hji
    rw [inUse_setInUse]
    refine iff_of_false (by simp) ?_
    intro ⟨hnm, h⟩
    exact hnm (EntryName.chars_inj (h.2.2.symm.trans hi.2.2))
  · have hsame : SameEntry dir.table (setInUse dir.table i 0) j := sameEntry_setInUse 0 hji
    rw [hsame.inUse, hsame.nameAt]
    refine ⟨fun h => ⟨fun hnm => ?_, h⟩, fun h => h.2⟩
    subst hnm
    exact hji (hD.holds_unique h hi)

omit hi in
theorem Distinct.removed : Distinct ⟨dir.tableSize, setInUse dir.table i 0⟩ := by
  have hused : ∀ k, inUse (setInUse dir.table i 0) k = true →
      SameEntry dir.table (setInUse dir.table i 0) k := by
    intro k hk
    refine sameEntry_setInUse 0 fun hki => ?_
    rw [hki, inUse_setInUse] at hk
    cases hk
  intro j k hj hk huj huk hname
  dsimp only at hj hk huj huk hname
  rw [(hused j huj).nameAt, (hused k huk).nameAt] at hname
  rw [(hused j huj).inUse] at huj
  rw [(hused k huk).inUse] at huk
  exact hD j k hj hk huj huk hname

end Removed

/-- `Remove` takes the name out, and leaves the others alone. -/
theorem Distinct.remove (hD : dir.Distinct) (h : (dir.remove (nm.arg b)).2 = dir') :
    dir'.tableSize = dir.tableSize ∧ dir'.Distinct ∧
      ∀ nm', dir'.lookup nm' = if nm = nm' then none else dir.lookup nm' := by
  subst h
  unfold Directory.remove
  cases hf : dir.findIndex (nm.arg b) with
  | none =>
    refine ⟨rfl, hD, fun nm' => ?_⟩
    by_cases hnm : nm = nm'
    · subst hnm
      rw [if_pos rfl]
      exact lookup_eq_none.mpr (findIndex_eq_none.mp hf)
    · rw [if_neg hnm]
  | some i =>
    have hi := holds_of_findIndex hf
    have hD' := hD.removed (i := i)
    refine ⟨rfl, hD', fun nm' => ?_⟩
    by_cases hnm : nm = nm'
    · rw [if_pos hnm]
      refine lookup_eq_none.mpr fun j hj => ?_
      exact ((holds_removed hD hi).mp hj).1 hnm.symm
    · rw [if_neg hnm]
      refine lookup_congr hD hD' (fun j => ?_) fun j hj => ?_
      · rw [holds_removed hD hi]
        exact and_iff_right (Ne.symm hnm)
      · refine SameEntry.sector (sameEntry_setInUse 0 fun hji => hnm ?_)
        exact EntryName.chars_inj (hi.2.2.symm.trans (hji ▸ hj.2.2))

/-- A copy of the table stands for the same map. -/
theorem Distinct.agrees (hD : dir.Distinct) (h : Agrees dir dir') :
    dir'.Distinct ∧ ∀ nm, dir'.lookup nm = dir.lookup nm := by
  refine ⟨fun i j hi hj hui huj hname => ?_, fun nm => ?_⟩
  · rw [h.size] at hi hj
    rw [(h.sameEntry hi).inUse] at hui
    rw [(h.sameEntry hj).inUse] at huj
    rw [(h.sameEntry hi).nameAt, (h.sameEntry hj).nameAt] at hname
    exact hD i j hi hj hui huj hname
  · unfold lookup
    rw [h.findIndex]
    refine Option.map_congr fun i hi => ?_
    exact (h.sameEntry (holds_of_findIndex hi).1).sector

/-! ## Sequences of calls -/

inductive Call
  | add (nm : EntryName) (behind : Nat → UInt8) (newSector : BitVec 32)
  | remove (nm : EntryName) (behind : Nat → UInt8)
  /-- `WriteBack` to the file, and `FetchFrom` it into a new directory. -/
  | reload (file : OpenFile) (d : Sectors) (buf memory : Nat → UInt8)

/-- What a call returns, and leaves of the directory. -/
def call (dir : Directory) : Call → Except Fault (Bool × Directory)
  | .add nm behind newSector => .ok (dir.add (nm.arg behind) newSector.toInt)
  | .remove nm behind => .ok (dir.remove (nm.arg behind))
  | .reload file d buf memory => do
    let d ← dir.writeBack d file buf
    let dir ← (new dir.tableSize memory).fetchFrom d file
    .ok (true, dir)

/-- The file of a `reload` is one that takes a table of the given size. -/
def Call.Fits (tableSize : Nat) : Call → Prop
  | .reload file _ _ _ => file.hdr.Sound ∧ tableSize * entrySize ≤ file.hdr.length
  | _ => True

/-- A directory, and the calls made on it with what they returned, the last one
first. -/
structure Session where
  dir : Directory
  past : List (Call × Bool)

namespace Session

def start (tableSize : Nat) (memory : Nat → UInt8) : Session := ⟨.new tableSize memory, []⟩

def step (s : Session) (c : Call) : Except Fault Session := do
  let (done, dir) ← s.dir.call c
  .ok ⟨dir, (c, done) :: s.past⟩

end Session

/-- The sector of the last successful `Add` of the name that no `Remove` of it has
followed. -/
def latest (nm : EntryName) : List (Call × Bool) → Option Int
  | [] => none
  | (.add nm' _ newSector, true) :: past =>
    if nm' = nm then some newSector.toInt else latest nm past
  | (.remove nm' _, _) :: past => if nm' = nm then none else latest nm past
  | _ :: past => latest nm past

namespace Session

/-- The directory is the map that its past tells. -/
structure Inv (tableSize : Nat) (s : Session) : Prop where
  size : s.dir.tableSize = tableSize
  distinct : s.dir.Distinct
  lookup : ∀ nm, s.dir.lookup nm = latest nm s.past

theorem start_inv (tableSize : Nat) (memory : Nat → UInt8) : Inv tableSize (start tableSize memory)
    where
  size := rfl
  distinct := fun i j hi _ hui _ _ => by
    have hfree : inUse (start tableSize memory).dir.table i = false := inUse_new memory hi
    rw [hfree] at hui
    cases hui
  lookup := fun nm => lookup_eq_none.mpr fun i hi => by
    have hfree : inUse (start tableSize memory).dir.table i = false := inUse_new memory hi.1
    have hused := hi.2.1
    rw [hfree] at hused
    cases hused

theorem step_inv {n : Nat} {s : Session} {c : Call} (hI : Inv n s) (hc : c.Fits n) :
    ∃ s', s.step c = .ok s' ∧ Inv n s' ∧ s'.past.map Prod.fst = c :: s.past.map Prod.fst := by
  unfold step
  cases c with
  | add nm behind newSector =>
    cases hadd : s.dir.add (nm.arg behind) newSector.toInt with
    | mk done dir' =>
      rw [call, hadd, ok_bind]
      refine ⟨_, rfl, ?_, rfl⟩
      cases done with
      | false =>
        rw [add_of_false hadd]
        exact ⟨hI.size, hI.distinct, hI.lookup⟩
      | true =>
        obtain ⟨hsize, hD, hlook⟩ := hI.distinct.add (isInt_toInt newSector) hadd
        refine ⟨hsize.trans hI.size, hD, fun nm' => ?_⟩
        rw [hlook nm', hI.lookup nm']
        rfl
  | remove nm behind =>
    cases hremove : s.dir.remove (nm.arg behind) with
    | mk done dir' =>
      obtain ⟨hsize, hD, hlook⟩ := hI.distinct.remove (congrArg Prod.snd hremove)
      rw [call, hremove, ok_bind]
      refine ⟨_, rfl, ⟨hsize.trans hI.size, hD, fun nm' => ?_⟩, rfl⟩
      rw [hlook nm', hI.lookup nm']
      rfl
  | reload file d buf memory =>
    have hlen := hc.2
    rw [← hI.size] at hlen
    obtain ⟨d', hwrite, hsaved, -⟩ := writeBack_front (d := d) hc.1 buf hlen
    have hnew : (new s.dir.tableSize memory).tableSize * entrySize ≤ file.hdr.length := hlen
    obtain ⟨dir', hfetch, hloaded⟩ := fetchFrom_front (d := d') hc.1 hnew
    obtain ⟨hD₁, hlook₁⟩ := hI.distinct.agrees hsaved
    obtain ⟨hD₂, hlook₂⟩ := hD₁.agrees hloaded
    rw [call, hwrite, ok_bind, hfetch, ok_bind, ok_bind]
    refine ⟨_, rfl, ⟨hloaded.size.trans hI.size, hD₂, fun nm => ?_⟩, rfl⟩
    exact ((hlook₂ nm).trans (hlook₁ nm)).trans (hI.lookup nm)

theorem run_inv {n : Nat} {s : Session} (cs : List Call) (hI : Inv n s)
    (hcs : ∀ c ∈ cs, c.Fits n) :
    ∃ s', Run step s cs s' ∧ Inv n s' ∧
      s'.past.map Prod.fst = cs.reverse ++ s.past.map Prod.fst := by
  induction cs generalizing s with
  | nil => exact ⟨s, .nil, hI, rfl⟩
  | cons c cs ih =>
    obtain ⟨s₁, hstep, hI₁, hpast₁⟩ := step_inv hI (hcs c List.mem_cons_self)
    obtain ⟨s₂, hrun, hI₂, hpast₂⟩ := ih hI₁ fun c' hc' => hcs c' (List.mem_cons_of_mem _ hc')
    refine ⟨s₂, .cons hstep hrun, hI₂, ?_⟩
    rw [hpast₂, hpast₁, List.reverse_cons, List.append_assoc]
    rfl

/-- The directory is a finite map. After any sequence of calls on an empty one:
`Find` returns the sector of the last successful `Add` of the name that no
`Remove` has followed, and -1 if there is none; no two entries in use have the
same name; `Add` fails exactly if the name is there or the table is full; and
`Add` and `Remove` of one name leave every other as it was. -/
theorem directory_is_map (tableSize : Nat) (memory : Nat → UInt8) (cs : List Call)
    (hcs : ∀ c ∈ cs, c.Fits tableSize) :
    ∃ s, Run step (start tableSize memory) cs s ∧ s.past.map Prod.fst = cs.reverse ∧
      (∀ nm b, s.dir.find (nm.arg b) = (latest nm s.past).getD (-1)) ∧
      s.dir.tableSize = tableSize ∧ s.dir.Distinct ∧
      (∀ nm b sector, (s.dir.add (nm.arg b) sector).1 = false ↔
        latest nm s.past ≠ none ∨ s.dir.Full) ∧
      ∀ (nm nm' : EntryName) b b', nm' ≠ nm →
        (∀ sector : BitVec 32, (s.dir.add (nm.arg b) sector.toInt).2.find (nm'.arg b') =
          s.dir.find (nm'.arg b')) ∧
        (s.dir.remove (nm.arg b)).2.find (nm'.arg b') = s.dir.find (nm'.arg b') := by
  obtain ⟨s, hrun, hI, hpast⟩ := run_inv cs (start_inv tableSize memory) hcs
  rw [start, List.map_nil, List.append_nil] at hpast
  refine ⟨s, hrun, hpast, fun nm b => ?_, hI.size, hI.distinct, fun nm b sector => ?_,
    fun nm nm' b b' hnm => ⟨fun sector => ?_, ?_⟩⟩
  · rw [find_eq_lookup, hI.lookup]
  · rw [add_eq_false, hI.lookup]
  · rw [find_eq_lookup, find_eq_lookup]
    cases hadd : s.dir.add (nm.arg b) sector.toInt with
    | mk done dir' =>
      cases done with
      | false =>
        rw [add_of_false hadd]
      | true =>
        obtain ⟨-, -, hlook⟩ := hI.distinct.add (isInt_toInt sector) hadd
        rw [hlook, if_neg (Ne.symm hnm)]
  · obtain ⟨-, -, hlook⟩ := hI.distinct.remove (rfl : (s.dir.remove (nm.arg b)).2 = _)
    rw [find_eq_lookup, find_eq_lookup, hlook, if_neg (Ne.symm hnm)]

/-- The name "a". -/
def nameA : EntryName := ⟨[97], by decide, by decide⟩

/-- "a" is added, the directory goes through a file, "a" is added again and
removed. -/
def addedTwice : List Call :=
  [.add nameA (fun _ => 1) 5,
    .reload ⟨Request.twoBlocks, 0⟩ (fun _ _ => 0) (fun _ => 3) (fun _ => 1),
    .add nameA (fun _ => 2) 6, .remove nameA fun _ => 3]

theorem directory_is_map_two :
    ∃ s, Run step (start 2 fun _ => 1) addedTwice s ∧ s.dir.find (nameA.arg fun _ => 9) = -1 := by
  have hfits : ∀ c ∈ addedTwice, c.Fits 2 := by
    simp only [addedTwice, List.forall_mem_cons, Call.Fits, true_and]
    exact ⟨⟨Request.twoBlocks_sound, by decide⟩, by simp⟩
  obtain ⟨s, hrun, hpast, hfind, -⟩ := directory_is_map 2 (fun _ => 1) addedTwice hfits
  refine ⟨s, hrun, ?_⟩
  rw [hfind]
  cases hp : s.past with
  | nil =>
    rw [hp] at hpast
    cases hpast
  | cons last past =>
    obtain ⟨c, done⟩ := last
    obtain rfl : c = .remove nameA fun _ => 3 := by
      rw [hp] at hpast
      exact (List.cons.inj hpast).1
    rw [latest, if_pos rfl]
    rfl

end Session
end Directory
end Nachos

import Nachos.Userprog.Exclusive

/-! User memory as the kernel sees it in a system call (translate.cc): byte by
byte, through `ReadMem` and `WriteMem`. A page fault is handled on the spot and
the access then reports failure without having been made; any other exception ends
the thread. -/

namespace Nachos
open Lib

/-- What `ReadMem` of a byte comes to: the byte; `FALSE`, once a page fault has
been handled; or the end of the thread, in the handler of another exception. -/
inductive ReadResult
  | value (byte : UInt8) (k : Kernel)
  | failed (k : Kernel)
  | killed (k : Kernel)

/-- The same for `WriteMem`. -/
inductive WriteResult
  | stored (k : Kernel)
  | failed (k : Kernel)
  | killed (k : Kernel)

/-- How a system call ends: back in the program, or with the thread. -/
inductive CallEnd
  | returned (k : Kernel) (n : Next)
  | killed (k : Kernel)

namespace Kernel

/-- `ReadMem(addr, 1, &value)`. -/
def readMem (k : Kernel) (addr : BitVec 32) (random : Nat) (merged : Bool) :
    Except Fault ReadResult :=
  match k.translate addr .byte false with
  | .error e => .error e
  | .ok (.mapped physAddr entry) => .ok (.value (k.mainMemory physAddr) (k.setEntry addr entry))
  | .ok (.exception .pageFault) => do
    let s ← k.currentSpace
    let k ← (k.raise addr).loadPage s addr random
    .ok (.failed k)
  | .ok (.exception _) => do
    let r ← k.act (.fatal addr merged)
    .ok (.killed r.1)

/-- `WriteMem(addr, 1, value)`. -/
def writeMem (k : Kernel) (addr : BitVec 32) (value : UInt8) (random : Nat) (merged : Bool) :
    Except Fault WriteResult :=
  match k.translate addr .byte true with
  | .error e => .error e
  | .ok (.mapped physAddr entry) =>
    .ok (.stored { k.setEntry addr entry with
      mainMemory := Function.update k.mainMemory physAddr value })
  | .ok (.exception .pageFault) => do
    let s ← k.currentSpace
    let k ← (k.raise addr).loadPage s addr random
    .ok (.failed k)
  | .ok (.exception _) => do
    let r ← k.act (.fatal addr merged)
    .ok (.killed r.1)

/-- The page of `addr` is brought in if it is not in memory. -/
def bringIn (k : Kernel) (addr : BitVec 32) (random : Nat) : Except Fault Kernel :=
  if k.Faults addr then do
    let s ← k.currentSpace
    (k.raise addr).loadPage s addr random
  else .ok k

/-- `addr` is in a page that is in memory, at `physAddr`. -/
def Mapped (k : Kernel) (addr : BitVec 32) (physAddr : Nat) : Prop :=
  ∃ entry, k.translate addr .byte false = .ok (.mapped physAddr entry)

/-- `addr` is in a page that is in memory and may be written, at `physAddr`. -/
def Writable (k : Kernel) (addr : BitVec 32) (physAddr : Nat) : Prop :=
  ∃ entry, k.translate addr .byte true = .ok (.mapped physAddr entry)

/-- The byte at `addr`, if its page is in memory. -/
def peek (k : Kernel) (addr : BitVec 32) : Option UInt8 :=
  match k.translate addr .byte false with
  | .ok (.mapped physAddr _) => some (k.mainMemory physAddr)
  | _ => none

/-- A byte stored at `addr`, without an exception. -/
def store (k : Kernel) (addr : BitVec 32) (b : UInt8) : Except Fault Kernel :=
  k.access (.write addr .byte (BitVec.ofNat 32 b.toNat))

/-- The byte the user has at `addr`: what stands there once its page is in
memory. -/
def UserByte (k : Kernel) (addr : BitVec 32) (b : UInt8) : Prop :=
  (∃ random k1, k.bringIn addr random = .ok k1) ∧
    ∀ random k1, k.bringIn addr random = .ok k1 → k1.peek addr = some b

/-- The bytes the user has from `addr` on. -/
def UserBytes (k : Kernel) (addr : BitVec 32) (bs : List UInt8) : Prop :=
  ∀ i b, bs[i]? = some b → k.UserByte (addr + BitVec.ofNat 32 i) b

variable {k k' k1 : Kernel} {s : SpacePtr} {S : AddrSpace} {addr : BitVec 32} {random : Nat}
  {merged : Bool} {n : Next}

/-! ## Translation and the bits of the entries -/

/-- Every address is translated as before, but for the bits of the entries. -/
def SameMap (k k' : Kernel) : Prop := ∀ addr width writing,
  (k'.translate addr width writing).map Translation.outcome =
    (k.translate addr width writing).map Translation.outcome

theorem SameMap.refl (k : Kernel) : SameMap k k := fun _ _ _ => rfl

theorem SameMap.symm (h : SameMap k k') : SameMap k' k :=
  fun addr width writing => (h addr width writing).symm

theorem SameMap.trans {k'' : Kernel} (h : SameMap k k') (h' : SameMap k' k'') : SameMap k k'' :=
  fun addr width writing => (h' addr width writing).trans (h addr width writing)

theorem translate_mapped_iff {physAddr : Nat} {width : Width} {writing : Bool} :
    (∃ entry, k.translate addr width writing = .ok (.mapped physAddr entry)) ↔
      (k.translate addr width writing).map Translation.outcome = .ok (.inr physAddr) := by
  constructor
  · intro ⟨entry, h⟩
    rw [h]
    rfl
  · intro h
    cases ht : k.translate addr width writing with
    | error e =>
      rw [ht] at h
      cases h
    | ok t =>
      rw [ht] at h
      cases t with
      | exception which => cases h
      | mapped x entry =>
        cases h
        exact ⟨entry, rfl⟩

theorem SameMap.mapped (h : SameMap k k') (addr : BitVec 32) (physAddr : Nat) :
    k'.Mapped addr physAddr ↔ k.Mapped addr physAddr := by
  unfold Mapped
  rw [translate_mapped_iff, translate_mapped_iff, h]

theorem SameMap.writable (h : SameMap k k') (addr : BitVec 32) (physAddr : Nat) :
    k'.Writable addr physAddr ↔ k.Writable addr physAddr := by
  unfold Writable
  rw [translate_mapped_iff, translate_mapped_iff, h]

theorem SameMap.faults (h : SameMap k k') (hf : k.Faults addr) : k'.Faults addr := by
  have hout := h addr .byte false
  rw [faults_iff.mp hf] at hout
  refine faults_iff.mpr (?_ : k'.translate addr .byte false = _)
  cases ht : k'.translate addr .byte false with
  | error e =>
    rw [ht] at hout
    cases hout
  | ok t =>
    rw [ht] at hout
    cases t with
    | exception which =>
      cases hout
      rfl
    | mapped x entry => cases hout

theorem setEntry_memory (k : Kernel) (addr : BitVec 32) (entry : TranslationEntry) :
    (k.setEntry addr entry).mainMemory = k.mainMemory := by
  unfold setEntry
  split <;> rfl

/-- Writing back an entry that only has more bits set changes no translation. -/
theorem sameMap_setEntry {physAddr : Nat} {entry : TranslationEntry} {width : Width}
    {writing : Bool} (h : k.translate addr width writing = .ok (.mapped physAddr entry)) :
    SameMap k (k.setEntry addr entry) := by
  unfold translate at h
  split at h
  · cases h
  · rename_i s S htab
    have he := translate_mapped (Except.ok.inj h)
    have htab' : (k.setEntry addr entry).machineTable =
        .ok (s, { S with pageTable := Function.update S.pageTable (vpnOf addr) entry }) := by
      unfold setEntry
      rw [htab]
      unfold machineTable
      rw [show (k.setSpace s _).pageTable = some s from (machineTable_eq_ok.mp htab).1]
      simp [setSpace]
    have hsize : (k.setEntry addr entry).pageTableSize = k.pageTableSize :=
      (congrArg Kernel.pageTableSize (memoryOnly_setEntry k addr entry).rest :)
    intro a w wr
    unfold translate
    rw [htab', htab, hsize]
    refine congrArg Except.ok (translate_outcome (fun v => ?_) _ _ _ _)
    dsimp only
    rw [Function.update_apply]
    split
    · rename_i hv
      rw [hv]
      exact he
    · exact ⟨rfl, rfl, rfl⟩

/-! ## Reading a byte -/

theorem mapped_iff {physAddr : Nat} (htab : k.machineTable = .ok (s, S)) :
    k.Mapped addr physAddr ↔ vpnOf addr < k.pageTableSize ∧
      (S.pageTable (vpnOf addr)).valid = true ∧
      toUnsigned (S.pageTable (vpnOf addr)).physicalPage < numPhysPages ∧
      physAddr = (toUnsigned (S.pageTable (vpnOf addr)).physicalPage).toNat * pageSize +
        addr.toNat % pageSize := by
  have halign : ¬ addr.toNat % Width.byte.size ≠ 0 := by simp [Width.size, Nat.mod_one]
  unfold Mapped translate
  rw [htab]
  simp only [Except.ok.injEq, Nachos.translate, if_neg halign]
  constructor
  · rintro ⟨entry, h⟩
    split at h
    · cases h
    · rename_i hlt
      split at h
      · cases h
      · rename_i hv
        unfold TranslationEntry.access at h
        simp only [Bool.and_false, Bool.false_eq_true, if_false] at h
        split at h
        · cases h
        · rename_i hframe
          cases h
          exact ⟨Nat.not_le.mp hlt, by simpa using hv, Int.not_le.mp hframe, rfl⟩
  · rintro ⟨hlt, hv, hframe, rfl⟩
    exact ⟨_, (if_neg (Nat.not_le.mpr hlt)).trans ((if_neg (by simp [hv])).trans
      ((if_neg (by simp)).trans (if_neg (Int.not_le.mpr hframe))))⟩

/-- Reading changes nothing but bits of page table entries. -/
structure Browsed (k k' : Kernel) : Prop where
  only : MemoryOnly k k'
  memory : k'.mainMemory = k.mainMemory
  mapped : ∀ addr physAddr, k'.Mapped addr physAddr ↔ k.Mapped addr physAddr

theorem Browsed.refl (k : Kernel) : Browsed k k := ⟨.refl k, rfl, fun _ _ => Iff.rfl⟩

theorem Browsed.trans {k'' : Kernel} (h : Browsed k k') (h' : Browsed k' k'') : Browsed k k'' :=
  ⟨h.only.trans h'.only, h'.memory.trans h.memory,
    fun a x => (h'.mapped a x).trans (h.mapped a x)⟩

theorem browsed_setEntry {physAddr : Nat} {entry : TranslationEntry}
    (h : k.translate addr .byte false = .ok (.mapped physAddr entry)) :
    Browsed k (k.setEntry addr entry) :=
  ⟨memoryOnly_setEntry k addr entry, setEntry_memory k addr entry, (sameMap_setEntry h).mapped⟩

theorem readMem_of_mapped {physAddr : Nat} (h : k.Mapped addr physAddr) (random : Nat)
    (merged : Bool) : ∃ k', k.readMem addr random merged =
      .ok (.value (k.mainMemory physAddr) k') ∧ Browsed k k' := by
  obtain ⟨entry, h⟩ := h
  refine ⟨k.setEntry addr entry, ?_, browsed_setEntry h⟩
  unfold readMem
  rw [h]

/-- What both copies do with a page fault is `bringIn`. -/
theorem bringIn_of_pageFault {writing : Bool}
    (htr : k.translate addr .byte writing = .ok (.exception .pageFault))
    (hs : k.currentSpace = .ok s) (hload : (k.raise addr).loadPage s addr random = .ok k1) :
    k.Faults addr ∧ k.bringIn addr random = .ok k1 := by
  have hflt : k.Faults addr := faults_iff.mpr htr
  exact ⟨hflt, (if_pos hflt).trans (bind_eq_ok.mpr ⟨s, hs, hload⟩)⟩

theorem readMem_cases {r : ReadResult} (h : k.readMem addr random merged = .ok r) :
    (∃ physAddr entry, k.translate addr .byte false = .ok (.mapped physAddr entry) ∧
        r = .value (k.mainMemory physAddr) (k.setEntry addr entry)) ∨
      (∃ k1, k.Faults addr ∧ k.bringIn addr random = .ok k1 ∧ r = .failed k1) ∨
      ∃ r', k.act (.fatal addr merged) = .ok r' ∧ r = .killed r'.1 := by
  unfold readMem at h
  split at h
  · cases h
  · rename_i physAddr entry htr
    cases h
    exact .inl ⟨physAddr, entry, htr, rfl⟩
  · rename_i htr
    obtain ⟨s, hs, h⟩ := bind_eq_ok.mp h
    obtain ⟨k1, hload, h⟩ := bind_eq_ok.mp h
    cases h
    obtain ⟨hflt, hin⟩ := bringIn_of_pageFault htr hs hload
    exact .inr (.inl ⟨k1, hflt, hin, rfl⟩)
  · obtain ⟨r', hact, h⟩ := bind_eq_ok.mp h
    cases h
    exact .inr (.inr ⟨r', hact, rfl⟩)

/-- Without a page fault `Random()` does not matter, and there is nothing to
read again. -/
theorem readMem_of_not_faults (h : ¬ k.Faults addr) (random : Nat) (merged : Bool) :
    (∀ random', k.readMem addr random merged = k.readMem addr random' merged) ∧
      ∀ k', k.readMem addr random merged ≠ .ok (.failed k') := by
  unfold readMem
  split
  · exact ⟨fun _ => rfl, nofun⟩
  · exact ⟨fun _ => rfl, nofun⟩
  · rename_i htr
    exact absurd (faults_iff.mpr htr) h
  · refine ⟨fun _ => rfl, fun k' hr => ?_⟩
    obtain ⟨r, -, hr⟩ := bind_eq_ok.mp hr
    cases hr

theorem next_address (addr : BitVec 32) (i : Nat) :
    addr + 1 + BitVec.ofNat 32 i = addr + BitVec.ofNat 32 (i + 1) := by
  rw [BitVec.add_assoc, BitVec.add_comm 1, BitVec.ofNat_add]
  rfl

/-! ## What the user has -/

theorem Mapped.not_faults {physAddr : Nat} (h : k.Mapped addr physAddr) : ¬ k.Faults addr := by
  intro hf
  obtain ⟨entry, h⟩ := h
  cases h.symm.trans (faults_iff.mp hf)

theorem bringIn_of_not_faults (h : ¬ k.Faults addr) (random : Nat) :
    k.bringIn addr random = .ok k := if_neg h

theorem readMem_of_faults (hflt : k.Faults addr) (h : k.bringIn addr random = .ok k1)
    (merged : Bool) : k.readMem addr random merged = .ok (.failed k1) := by
  unfold bringIn at h
  rw [if_pos hflt] at h
  obtain ⟨s, hs, hload⟩ := bind_eq_ok.mp h
  unfold readMem
  rw [faults_iff.mp hflt]
  exact bind_eq_ok.mpr ⟨s, hs, bind_eq_ok.mpr ⟨k1, hload, rfl⟩⟩

theorem bringIn_of_readMem {r : ReadResult} (h : k.readMem addr random merged = .ok r) :
    ∃ k1, k.bringIn addr random = .ok k1 := by
  by_cases hflt : k.Faults addr
  · unfold readMem at h
    rw [faults_iff.mp hflt] at h
    obtain ⟨s, hs, h⟩ := bind_eq_ok.mp h
    obtain ⟨k1, hload, -⟩ := bind_eq_ok.mp h
    exact ⟨k1, (if_pos hflt).trans (bind_eq_ok.mpr ⟨s, hs, hload⟩)⟩
  · exact ⟨k, if_neg hflt⟩

/-- A byte that is read a second time if the first reading fails is read once
the page is in memory. -/
theorem readMem_again {α : Type} {next : UInt8 → Kernel → Except Fault α}
    {killed : Kernel → Except Fault α} {random' : Nat}
    (h : k.bringIn addr random = .ok k1) :
    (k.readMem addr random merged >>= fun r => match r with
        | .value j k => next j k
        | .failed k => k.readMem addr random' merged >>= fun r => match r with
          | .value j k => next j k
          | .failed _ => .error .undefined
          | .killed k => killed k
        | .killed k => killed k) =
      k1.readMem addr random' merged >>= fun r => match r with
        | .value j k => next j k
        | .failed _ => .error .undefined
        | .killed k => killed k := by
  by_cases hflt : k.Faults addr
  · rw [readMem_of_faults hflt h merged, ok_bind]
  · cases (bringIn_of_not_faults hflt random).symm.trans h
    rw [(readMem_of_not_faults hflt random merged).1 random']
    cases hres : k.readMem addr random' merged with
    | error e => rfl
    | ok r =>
      cases r with
      | value j k1 => rfl
      | failed k1 => exact absurd hres ((readMem_of_not_faults hflt _ _).2 k1)
      | killed k1 => rfl

theorem Mapped.peek_eq {physAddr : Nat} (h : k.Mapped addr physAddr) :
    k.peek addr = some (k.mainMemory physAddr) := by
  obtain ⟨entry, h⟩ := h
  unfold peek
  rw [h]

theorem peek_isSome_iff : (k.peek addr).isSome ↔ ∃ physAddr, k.Mapped addr physAddr := by
  constructor
  · intro h
    unfold peek at h
    split at h
    · rename_i physAddr entry htr
      exact ⟨physAddr, entry, htr⟩
    · cases h
  · intro ⟨physAddr, h⟩
    rw [h.peek_eq]
    rfl

theorem Browsed.peek (h : Browsed k k') (addr : BitVec 32) : k'.peek addr = k.peek addr := by
  by_cases hm : ∃ physAddr, k.Mapped addr physAddr
  · obtain ⟨physAddr, hm⟩ := hm
    rw [((h.mapped _ _).mpr hm).peek_eq, hm.peek_eq, h.memory]
  · have hm' : ¬ ∃ physAddr, k'.Mapped addr physAddr :=
      fun ⟨physAddr, hx⟩ => hm ⟨physAddr, (h.mapped _ _).mp hx⟩
    rw [← peek_isSome_iff, Option.not_isSome_iff_eq_none] at hm hm'
    rw [hm, hm']

/-- For a page in memory, what the user has is what is in memory. -/
theorem Mapped.userByte_iff {physAddr : Nat} {b : UInt8} (h : k.Mapped addr physAddr) :
    k.UserByte addr b ↔ k.mainMemory physAddr = b := by
  have hin (random : Nat) := bringIn_of_not_faults h.not_faults random
  constructor
  · intro ⟨_, hb⟩
    have hpeek := hb 0 k (hin 0)
    rw [h.peek_eq] at hpeek
    exact Option.some.inj hpeek
  · intro hb
    refine ⟨⟨0, k, hin 0⟩, fun random k1 hk1 => ?_⟩
    cases (hin random).symm.trans hk1
    rw [h.peek_eq, hb]

theorem userByte_of_peek {b : UInt8} (h : k.peek addr = some b) : k.UserByte addr b := by
  obtain ⟨physAddr, hm⟩ := peek_isSome_iff.mp (by rw [h]; rfl)
  rw [hm.peek_eq] at h
  exact hm.userByte_iff.mpr (Option.some.inj h)

theorem UserByte.unique {b b' : UInt8} (h : k.UserByte addr b) (h' : k.UserByte addr b') :
    b = b' := by
  obtain ⟨⟨random, k1, hk1⟩, hb⟩ := h
  exact Option.some.inj ((hb random k1 hk1).symm.trans (h'.2 random k1 hk1))

theorem readMem_value {b : UInt8} (h : k.readMem addr random merged = .ok (.value b k1)) :
    k.peek addr = some b ∧ Browsed k k1 := by
  rcases readMem_cases h with ⟨x, entry, htr, hr⟩ | ⟨_, _, _, hr⟩ | ⟨_, _, hr⟩
  · cases hr
    have hm : k.Mapped addr x := ⟨entry, htr⟩
    exact ⟨hm.peek_eq, browsed_setEntry htr⟩
  · cases hr
  · cases hr

theorem readMem_of_peek {b : UInt8} (h : k.peek addr = some b) (random : Nat) (merged : Bool) :
    ∃ k1, k.readMem addr random merged = .ok (.value b k1) ∧ Browsed k k1 := by
  obtain ⟨x, hx⟩ := peek_isSome_iff.mp (by rw [h]; rfl)
  rw [hx.peek_eq] at h
  rw [← Option.some.inj h]
  exact readMem_of_mapped hx random merged

/-- The string `bs` and its NUL are in memory at `addr`. -/
def peeks (k : Kernel) (addr : BitVec 32) (bs : List UInt8) : Bool :=
  (List.range (bs.length + 1)).all fun i =>
    k.peek (addr + BitVec.ofNat 32 i) == some (bs.getD i 0)

theorem peeks_iff {bs : List UInt8} : k.peeks addr bs = true ↔
    ∀ i ≤ bs.length, k.peek (addr + BitVec.ofNat 32 i) = some (bs.getD i 0) := by
  simp only [peeks, List.all_eq_true, List.mem_range, Nat.lt_succ_iff, beq_iff_eq]

theorem userBytes_of_peeks {bs : List UInt8} (h : k.peeks addr bs = true) (n : Nat) :
    k.UserBytes addr (bs.take n) := by
  intro i b hb
  rw [List.getElem?_take] at hb
  split at hb
  · have hi := (List.getElem?_eq_some_iff.mp hb).1
    refine userByte_of_peek ((peeks_iff.mp h i (Nat.le_of_lt hi)).trans ?_)
    rw [List.getD_eq_getElem?_getD, hb]
    rfl
  · cases hb

/-! ## Writing a byte -/

theorem Writable.mapped {physAddr : Nat} (h : k.Writable addr physAddr) :
    k.Mapped addr physAddr := by
  obtain ⟨entry, h⟩ := h
  unfold translate at h
  split at h
  · cases h
  · rename_i s S htab
    rw [mapped_iff htab]
    have h := Except.ok.inj h
    unfold Nachos.translate TranslationEntry.access at h
    repeat' split at h
    all_goals cases h
    rename_i hlt hvalid _ hframe
    exact ⟨Nat.not_le.mp hlt, by simpa using hvalid, Int.not_le.mp hframe, rfl⟩

theorem store_eq_ok {b : UInt8} : k.store addr b = .ok k1 ↔ ∃ physAddr entry,
    k.translate addr .byte true = .ok (.mapped physAddr entry) ∧
      k1 = { k.setEntry addr entry with
        mainMemory := Function.update k.mainMemory physAddr b } := by
  have hvalue : (List.range Width.byte.size).map
      (fun i => (BitVec.ofNat 32 b.toNat >>> (8 * i)).toNat.toUInt8) = [b] := by
    simp [Width.size]
  unfold store access
  dsimp only
  rw [hvalue]
  simp only [overlay_singleton]
  constructor
  · intro h
    split at h
    · rename_i physAddr entry htr
      cases h
      exact ⟨physAddr, entry, htr, rfl⟩
    · cases h
    · cases h
  · rintro ⟨physAddr, entry, htr, rfl⟩
    rw [htr]

/-- A store changes no translation. -/
theorem store_sameMap {b : UInt8} (h : k.store addr b = .ok k1) : SameMap k k1 := by
  obtain ⟨physAddr, entry, htr, rfl⟩ := store_eq_ok.mp h
  exact sameMap_setEntry htr

theorem writable_iff {b : UInt8} :
    (∃ physAddr, k.Writable addr physAddr) ↔ ∃ k1, k.store addr b = .ok k1 := by
  constructor
  · intro ⟨physAddr, entry, htr⟩
    exact ⟨_, store_eq_ok.mpr ⟨physAddr, entry, htr, rfl⟩⟩
  · intro ⟨k1, h⟩
    obtain ⟨physAddr, entry, htr, -⟩ := store_eq_ok.mp h
    exact ⟨physAddr, entry, htr⟩

theorem store_memory {b : UInt8} {physAddr : Nat} (h : k.store addr b = .ok k1)
    (hw : k.Writable addr physAddr) :
    k1.mainMemory = Function.update k.mainMemory physAddr b := by
  obtain ⟨x, entry, htr, rfl⟩ := store_eq_ok.mp h
  obtain ⟨entry', htr'⟩ := hw
  cases htr.symm.trans htr'
  rfl

theorem writeMem_cases {b : UInt8} {r : WriteResult}
    (h : k.writeMem addr b random merged = .ok r) :
    (∃ k1, k.store addr b = .ok k1 ∧ r = .stored k1) ∨
      (∃ k1, k.Faults addr ∧ k.bringIn addr random = .ok k1 ∧ r = .failed k1) ∨
      ∃ r', k.act (.fatal addr merged) = .ok r' ∧ r = .killed r'.1 := by
  unfold writeMem at h
  split at h
  · cases h
  · rename_i physAddr entry htr
    cases h
    exact .inl ⟨_, store_eq_ok.mpr ⟨physAddr, entry, htr, rfl⟩, rfl⟩
  · rename_i htr
    obtain ⟨s, hs, h⟩ := bind_eq_ok.mp h
    obtain ⟨k1, hload, h⟩ := bind_eq_ok.mp h
    cases h
    obtain ⟨hflt, hin⟩ := bringIn_of_pageFault htr hs hload
    exact .inr (.inl ⟨k1, hflt, hin, rfl⟩)
  · obtain ⟨r', hact, h⟩ := bind_eq_ok.mp h
    cases h
    exact .inr (.inr ⟨r', hact, rfl⟩)

theorem writeMem_of_store {b : UInt8} (h : k.store addr b = .ok k1) (random : Nat)
    (merged : Bool) : k.writeMem addr b random merged = .ok (.stored k1) := by
  obtain ⟨physAddr, entry, htr, rfl⟩ := store_eq_ok.mp h
  unfold writeMem
  rw [htr]

/-- `WriteMem` fails where there is a page fault, whatever the value. -/
theorem writeMem_of_faults (hflt : k.Faults addr) (h : k.bringIn addr random = .ok k1)
    (b : UInt8) (merged : Bool) : k.writeMem addr b random merged = .ok (.failed k1) := by
  unfold bringIn at h
  rw [if_pos hflt] at h
  obtain ⟨s, hs, hload⟩ := bind_eq_ok.mp h
  unfold writeMem
  rw [faults_iff.mp hflt]
  exact bind_eq_ok.mpr ⟨s, hs, bind_eq_ok.mpr ⟨k1, hload, rfl⟩⟩

theorem offset_inj {i j : Nat} (hi : i < 4294967296) (hj : j < 4294967296)
    (h : addr + BitVec.ofNat 32 i = addr + BitVec.ofNat 32 j) : i = j := by
  have hnat := congrArg BitVec.toNat ((BitVec.add_right_inj addr).mp h)
  rw [BitVec.toNat_ofNat, BitVec.toNat_ofNat, Nat.mod_eq_of_lt hi, Nat.mod_eq_of_lt hj] at hnat
  exact hnat

/-! ## Accesses as runs of the machine -/

theorem here_congr (hcont : k1.cont = k.cont) (hcur : k1.currentThread = k.currentThread) :
    k1.here = k.here := by
  unfold here
  rw [hcont, hcur]

/-- Some run of the machine from `k` ends with an event in which the running
thread gets to `k'`, before the CPU is dispatched as `n` says. -/
def Leads (k k' : Kernel) (n : Next) : Prop :=
  ∃ es k1 e, Run step k es k1 ∧ k1.act e = .ok (k', n)

theorem Leads.after {es : List Event} (h : Run step k es k1) (h' : Leads k1 k' n) :
    Leads k k' n := by
  obtain ⟨es', k2, e, hrun, hact⟩ := h'
  exact ⟨es ++ es', k2, e, h.append hrun, hact⟩

/-- Some run of the machine from `k` leads to `k'`, where the call goes on. -/
def GoesOn (k k' : Kernel) : Prop := (∃ es, Run step k es k') ∧ k'.here = .call

theorem GoesOn.trans {k'' : Kernel} (h : GoesOn k k') (h' : GoesOn k' k'') : GoesOn k k'' := by
  obtain ⟨⟨es, hrun⟩, -⟩ := h
  obtain ⟨⟨es', hrun'⟩, hc⟩ := h'
  exact ⟨⟨es ++ es', hrun.append hrun'⟩, hc⟩

theorem access_step {a : Access} (hc : k.here = .call) (h : k.access a = .ok k1) :
    k.step (.copy a) = .ok k1 :=
  bind_eq_ok.mpr ⟨(k1, .stay), ite_error_eq_ok.mpr ⟨hc, bind_eq_ok.mpr ⟨k1, h, rfl⟩⟩, rfl⟩

theorem access_goesOn {a : Access} (hc : k.here = .call) (h : k.access a = .ok k1) :
    GoesOn k k1 := by
  refine ⟨⟨[.copy a], run_singleton.mpr (access_step hc h)⟩, ?_⟩
  have hrest := (access_memoryOnly h).rest
  exact (here_congr (congrArg Kernel.cont hrest :)
    (congrArg Kernel.currentThread hrest :)).trans hc

theorem bringIn_goesOn (hc : k.here = .call) (h : k.bringIn addr random = .ok k1) :
    GoesOn k k1 := by
  unfold bringIn at h
  split at h
  · rename_i hflt
    obtain ⟨s, hs, hload⟩ := bind_eq_ok.mp h
    obtain ⟨es, hrun, -⟩ := loadPage_run (.inr hc) hflt hs hload
    obtain ⟨st, r, l, hrest⟩ := loadPage_unpaged hload
    exact ⟨⟨es, hrun⟩, (here_congr (congrArg Kernel.cont hrest :)
      (congrArg Kernel.currentThread hrest :)).trans hc⟩
  · cases h
    exact ⟨⟨[], .nil⟩, hc⟩

theorem readMem_run {r : ReadResult} (hc : k.here = .call)
    (h : k.readMem addr random merged = .ok r) :
    match r with
    | .value _ k' => GoesOn k k'
    | .failed k' => GoesOn k k'
    | .killed k' => ∃ n, Leads k k' n := by
  rcases readMem_cases h with ⟨physAddr, entry, htr, rfl⟩ | ⟨k1, -, hin, rfl⟩ | ⟨r', hact, rfl⟩
  · refine access_goesOn hc (?_ : k.access (.read addr .byte) = _)
    unfold access
    dsimp only
    rw [htr]
  · exact bringIn_goesOn hc hin
  · exact ⟨r'.2, [], k, _, .nil, hact⟩

theorem writeMem_run {b : UInt8} {r : WriteResult} (hc : k.here = .call)
    (h : k.writeMem addr b random merged = .ok r) :
    match r with
    | .stored k' => GoesOn k k'
    | .failed k' => GoesOn k k'
    | .killed k' => ∃ n, Leads k k' n := by
  rcases writeMem_cases h with ⟨k1, hstore, rfl⟩ | ⟨k1, -, hin, rfl⟩ | ⟨r', hact, rfl⟩
  · exact access_goesOn hc hstore
  · exact bringIn_goesOn hc hin
  · exact ⟨r'.2, [], k, _, .nil, hact⟩

theorem trap_step (hu : k.here = .user) : k.step .trap = .ok k.trap :=
  bind_eq_ok.mpr ⟨(k.trap, .stay), if_pos hu, rfl⟩

/-- Some run of the machine from `k` ends as the call does. -/
def Ends (k : Kernel) : CallEnd → Prop
  | .returned k' n => Leads k k' n
  | .killed k' => ∃ n, Leads k k' n

theorem Ends.after {es : List Event} {r : CallEnd} (h : Run step k es k1) (h' : Ends k1 r) :
    Ends k r := by
  cases r with
  | returned k' n => exact Leads.after h h'
  | killed k' =>
    obtain ⟨n, hleads⟩ := h'
    exact ⟨n, hleads.after h⟩

end Kernel
end Nachos

import Nachos.Machine.MipsSim

/-! Memory as a user program sees it. A page table whose resident pages have
frames of their own shows the image those pages hold: a read finds the image's
bytes, a store is a store into the image, and only the bits of the entry
change. Which exceptions there are besides page faults does not depend on what
is resident. -/

namespace Nachos
open Lib

/-! ## Memory behind a page table -/

/-- An access that is not refused stays in its page. -/
theorem offset_add_size_le {addr : Nat} {width : Width} (h : addr % width.size = 0) :
    addr % pageSize + width.size ≤ pageSize := by
  cases width <;> simp only [Width.size, pageSize] at * <;> omega

theorem valueBytes_length (width : Width) (value : BitVec 32) :
    (valueBytes width value).length = width.size := by
  simp [valueBytes]

theorem valueAt_congr {mem mem' : Nat → UInt8} {p q : Nat} {width : Width}
    (h : ∀ i < width.size, mem (p + i) = mem' (q + i)) :
    valueAt mem p width = valueAt mem' q width := by
  have h0 := h 0
  have h1 := h 1
  have h2 := h 2
  have h3 := h 3
  cases width <;> simp [Width.size] at h0 h1 h2 h3 <;> simp [valueAt, h0, h1, h2, h3]

namespace Memory

/-- The page is in the table, and in memory. -/
def Resident (mem : Memory) (v : Nat) : Prop :=
  v < mem.pageTableSize ∧ (mem.pageTable v).valid = true

def frameOf (mem : Memory) (v : Nat) : Nat := (toUnsigned (mem.pageTable v).physicalPage).toNat

/-- The resident pages hold the image of the address space: each has a frame of
its own, with the image's bytes in it. -/
structure Holds (mem : Memory) (image : Nat → UInt8) : Prop where
  frame : ∀ v, mem.Resident v → toUnsigned (mem.pageTable v).physicalPage < numPhysPages
  distinct : ∀ v w, mem.Resident v → mem.Resident w → mem.frameOf v = mem.frameOf w → v = w
  bytes : ∀ v, mem.Resident v → ∀ j < pageSize,
    mem.mainMemory (mem.frameOf v * pageSize + j) = image (v * pageSize + j)

/-- The same address space, whichever of its pages are resident. -/
structure Alike (mem mem' : Memory) : Prop where
  size : mem.pageTableSize = mem'.pageTableSize
  readOnly : ∀ v, (mem.pageTable v).readOnly = (mem'.pageTable v).readOnly

theorem Alike.trans {mem mem' mem'' : Memory} (h : mem.Alike mem') (h' : mem'.Alike mem'') :
    mem.Alike mem'' :=
  ⟨h.size.trans h'.size, fun v => (h.readOnly v).trans (h'.readOnly v)⟩

theorem Alike.symm {mem mem' : Memory} (h : mem.Alike mem') : mem'.Alike mem :=
  ⟨h.size.symm, fun v => (h.readOnly v).symm⟩

/-- The exceptions of an access that do not depend on which pages are
resident. -/
def refusal (mem : Memory) (addr : BitVec 32) (width : Width) (writing : Bool) :
    Option ExceptionType :=
  if addr.toNat % width.size ≠ 0 then some .addressError
  else if vpnOf addr ≥ mem.pageTableSize then some .addressError
  else if (mem.pageTable (vpnOf addr)).readOnly && writing then some .readOnly
  else none

theorem Alike.refusal {mem mem' : Memory} (h : mem.Alike mem') (addr : BitVec 32) (width : Width)
    (writing : Bool) : mem.refusal addr width writing = mem'.refusal addr width writing := by
  unfold Memory.refusal
  rw [h.size, h.readOnly]

/-- The entry of the page of `addr` behind an access. -/
def touched (mem : Memory) (addr : BitVec 32) (writing : Bool) : TranslationEntry :=
  let entry := mem.pageTable (vpnOf addr)
  { entry with use := true, dirty := entry.dirty || writing }

theorem translate_cases {mem : Memory} {image : Nat → UInt8} (h : mem.Holds image)
    (addr : BitVec 32) (width : Width) (writing : Bool) :
    mem.translate addr width writing = .exception .pageFault ∨
    (∃ which, mem.refusal addr width writing = some which ∧
      mem.translate addr width writing = .exception which) ∨
    (mem.refusal addr width writing = none ∧ addr.toNat % width.size = 0 ∧
      mem.Resident (vpnOf addr) ∧ mem.translate addr width writing =
        .mapped (mem.frameOf (vpnOf addr) * pageSize + addr.toNat % pageSize)
          (mem.touched addr writing)) := by
  unfold translate Nachos.translate TranslationEntry.access refusal
  by_cases ha : addr.toNat % width.size ≠ 0
  · exact .inr (.inl ⟨_, if_pos ha, if_pos ha⟩)
  rw [if_neg ha, if_neg ha]
  by_cases hs : vpnOf addr ≥ mem.pageTableSize
  · exact .inr (.inl ⟨_, if_pos hs, if_pos hs⟩)
  rw [if_neg hs, if_neg hs]
  cases hv : (mem.pageTable (vpnOf addr)).valid with
  | false => exact .inl rfl
  | true =>
    have hres : mem.Resident (vpnOf addr) := ⟨Nat.lt_of_not_le hs, hv⟩
    have hframe : ¬ toUnsigned (mem.pageTable (vpnOf addr)).physicalPage ≥ numPhysPages :=
      Int.not_le.mpr (h.frame _ hres)
    cases hro : (mem.pageTable (vpnOf addr)).readOnly && writing with
    | true => exact .inr (.inl ⟨_, rfl, rfl⟩)
    | false =>
      refine .inr (.inr ⟨rfl, not_not.mp ha, hres, ?_⟩)
      simp only [Bool.not_true, Bool.false_eq_true, if_false, if_neg hframe, touched, frameOf, hv]

theorem setEntry_touched (mem : Memory) (addr : BitVec 32) (writing : Bool) (v : Nat) :
    ((mem.setEntry addr (mem.touched addr writing)).pageTable v).physicalPage =
      (mem.pageTable v).physicalPage ∧
    ((mem.setEntry addr (mem.touched addr writing)).pageTable v).valid = (mem.pageTable v).valid ∧
    ((mem.setEntry addr (mem.touched addr writing)).pageTable v).readOnly =
      (mem.pageTable v).readOnly := by
  simp only [setEntry, Function.update_apply]
  split
  · rename_i hv
    rw [hv]
    exact ⟨rfl, rfl, rfl⟩
  · exact ⟨rfl, rfl, rfl⟩

/-- Behind an access the same pages of the same address space are resident, in
the same frames. -/
structure Steady (mem mem' : Memory) : Prop where
  alike : mem'.Alike mem
  resident : ∀ v, mem'.Resident v ↔ mem.Resident v
  frameOf : ∀ v, mem'.frameOf v = mem.frameOf v
  frame : ∀ v, (mem'.pageTable v).physicalPage = (mem.pageTable v).physicalPage

theorem steady_setEntry (mem : Memory) (addr : BitVec 32) (writing : Bool) :
    mem.Steady (mem.setEntry addr (mem.touched addr writing)) where
  alike := ⟨rfl, fun v => (mem.setEntry_touched addr writing v).2.2⟩
  resident v := by rw [Resident, (mem.setEntry_touched addr writing v).2.1]; rfl
  frameOf v := by rw [Memory.frameOf, (mem.setEntry_touched addr writing v).1]; rfl
  frame v := (mem.setEntry_touched addr writing v).1

theorem Steady.all_resident {mem mem' : Memory} (hs : mem.Steady mem')
    (h : ∀ v < mem.pageTableSize, mem.Resident v) :
    ∀ v < mem'.pageTableSize, mem'.Resident v := by
  intro v hv
  rw [hs.alike.size] at hv
  exact (hs.resident v).mpr (h v hv)

/-- A change of the page table alone keeps what memory holds. -/
theorem Steady.holds {mem mem' : Memory} {image : Nat → UInt8} (hs : mem.Steady mem')
    (hmem : mem'.mainMemory = mem.mainMemory) (h : mem.Holds image) : mem'.Holds image where
  frame v hv := by rw [hs.frame]; exact h.frame v ((hs.resident v).mp hv)
  distinct v w hv hw he := by
    rw [hs.frameOf, hs.frameOf] at he
    exact h.distinct v w ((hs.resident v).mp hv) ((hs.resident w).mp hw) he
  bytes v hv j hj := by rw [hmem, hs.frameOf]; exact h.bytes v ((hs.resident v).mp hv) j hj

theorem vpnOf_add (addr : BitVec 32) : vpnOf addr * pageSize + addr.toNat % pageSize = addr.toNat :=
  Nat.div_add_mod' _ _

/-- The value at a resident address is the image's. -/
theorem Holds.valueAt {mem : Memory} {image : Nat → UInt8} (h : mem.Holds image)
    {addr : BitVec 32} {width : Width} (ha : addr.toNat % width.size = 0)
    (hv : mem.Resident (vpnOf addr)) :
    Nachos.valueAt mem.mainMemory (mem.frameOf (vpnOf addr) * pageSize + addr.toNat % pageSize)
      width = Nachos.valueAt image addr.toNat width := by
  refine valueAt_congr fun i hi => ?_
  have hin := offset_add_size_le ha
  rw [Nat.add_assoc, h.bytes _ hv _ (by omega), ← Nat.add_assoc, vpnOf_add]

/-- A store at a resident address is a store into the image: the other pages
are in other frames. -/
theorem Holds.store {mem mem' : Memory} {image : Nat → UInt8} (h : mem.Holds image)
    (hs : mem.Steady mem') {addr : BitVec 32} {bs : List UInt8}
    (hin : addr.toNat % pageSize + bs.length ≤ pageSize) (hv : mem.Resident (vpnOf addr))
    (hmem : mem'.mainMemory = overlay mem.mainMemory
      (mem.frameOf (vpnOf addr) * pageSize + addr.toNat % pageSize) bs) :
    mem'.Holds (overlay image addr.toNat bs) where
  frame v hv := by rw [hs.frame]; exact h.frame v ((hs.resident v).mp hv)
  distinct v w hv hw he := by
    rw [hs.frameOf, hs.frameOf] at he
    exact h.distinct v w ((hs.resident v).mp hv) ((hs.resident w).mp hw) he
  bytes v hv' j hj := by
    have hv'' := (hs.resident v).mp hv'
    rw [hmem, hs.frameOf]
    by_cases hp : v = vpnOf addr
    · subst hp
      rw [overlay_base, ← vpnOf_add addr, overlay_base, h.bytes _ hv'' j hj, vpnOf_add]
    · have hf : mem.frameOf v ≠ mem.frameOf (vpnOf addr) := fun he => hp (h.distinct _ _ hv'' hv he)
      have hout (a b : Nat) (hab : a ≠ b) (m : Nat → UInt8) :
          overlay m (b * pageSize + addr.toNat % pageSize) bs (a * pageSize + j) =
            m (a * pageSize + j) := by
        simp only [pageSize] at *
        rcases Nat.lt_or_gt_of_ne hab with hlt | hgt
        · exact overlay_of_lt (by omega)
        · exact overlay_of_le (by omega)
      rw [hout _ _ hf, h.bytes _ hv'' j hj, ← vpnOf_add addr, hout _ _ hp]

theorem readMem_cases {mem : Memory} {image : Nat → UInt8} (h : mem.Holds image)
    (addr : BitVec 32) (width : Width) :
    mem.readMem addr width = .error .pageFault ∨
    (∃ which, mem.refusal addr width false = some which ∧
      mem.readMem addr width = .error which) ∨
    ∃ mem', mem.refusal addr width false = none ∧
      mem.readMem addr width = .ok (Nachos.valueAt image addr.toNat width, mem') ∧
      mem.Steady mem' ∧ mem'.Holds image := by
  unfold readMem
  rcases translate_cases h addr width false with ht | ⟨which, hr, ht⟩ | ⟨hr, ha, hv, ht⟩
  · rw [ht]; exact .inl rfl
  · rw [ht]; exact .inr (.inl ⟨which, hr, rfl⟩)
  · rw [ht]
    have hs := mem.steady_setEntry addr false
    exact .inr (.inr ⟨_, hr, by rw [← h.valueAt ha hv], hs, hs.holds rfl h⟩)

theorem writeMem_cases {mem : Memory} {image : Nat → UInt8} (h : mem.Holds image)
    (addr : BitVec 32) (width : Width) (value : BitVec 32) :
    mem.writeMem addr width value = .error .pageFault ∨
    (∃ which, mem.refusal addr width true = some which ∧
      mem.writeMem addr width value = .error which) ∨
    ∃ mem', mem.refusal addr width true = none ∧ mem.writeMem addr width value = .ok mem' ∧
      mem.Steady mem' ∧ mem.Resident (vpnOf addr) ∧ addr.toNat % width.size = 0 ∧
      mem'.Holds (overlay image addr.toNat (valueBytes width value)) := by
  unfold writeMem
  rcases translate_cases h addr width true with ht | ⟨which, hr, ht⟩ | ⟨hr, ha, hv, ht⟩
  · rw [ht]; exact .inl rfl
  · rw [ht]; exact .inr (.inl ⟨which, hr, rfl⟩)
  · rw [ht]
    have hs := mem.steady_setEntry addr true
    have hs' : mem.Steady { mem.setEntry addr (mem.touched addr true) with
        mainMemory := overlay mem.mainMemory
          (mem.frameOf (vpnOf addr) * pageSize + addr.toNat % pageSize)
          (valueBytes width value) } :=
      ⟨⟨hs.alike.size, hs.alike.readOnly⟩, hs.resident, hs.frameOf, hs.frame⟩
    refine .inr (.inr ⟨_, hr, rfl, hs', hv, ha, h.store hs' ?_ hv rfl⟩)
    rw [valueBytes_length]
    exact offset_add_size_le ha

theorem refusal_ne_pageFault {mem : Memory} {addr : BitVec 32} {width : Width} {writing : Bool}
    {which : ExceptionType} (h : mem.refusal addr width writing = some which) :
    which ≠ .pageFault := by
  unfold refusal at h
  repeat' split at h
  all_goals cases h
  all_goals decide

theorem translate_ne_pageFault {mem : Memory} (hall : ∀ v < mem.pageTableSize, mem.Resident v)
    (addr : BitVec 32) (width : Width) (writing : Bool) :
    mem.translate addr width writing ≠ .exception .pageFault := by
  unfold translate Nachos.translate TranslationEntry.access
  split
  · simp
  · split
    · simp
    · rename_i hs
      rw [(hall _ (Nat.lt_of_not_le hs)).2]
      split
      · contradiction
      · split
        · simp
        · split <;> simp

theorem readMem_ne_pageFault {mem : Memory} (hall : ∀ v < mem.pageTableSize, mem.Resident v)
    {addr : BitVec 32} {width : Width} : mem.readMem addr width ≠ .error .pageFault := by
  intro h
  unfold readMem at h
  split at h
  · rename_i ht
    cases h
    exact translate_ne_pageFault hall addr width false ht
  · cases h

theorem writeMem_ne_pageFault {mem : Memory} (hall : ∀ v < mem.pageTableSize, mem.Resident v)
    {addr : BitVec 32} {width : Width} {value : BitVec 32} :
    mem.writeMem addr width value ≠ .error .pageFault := by
  intro h
  unfold writeMem at h
  split at h
  · rename_i ht
    cases h
    exact translate_ne_pageFault hall addr width true ht
  · cases h

end Memory

/-! ## A page of code -/

/-- An address space of one page, resident or not, with the given code in it. -/
def Memory.sample (valid : Bool) (code : List UInt8) : Memory where
  mainMemory := fun i => code.getD i 0
  pageTable := fun v => ⟨v, 0, valid, false, false, false⟩
  pageTableSize := 1

theorem Memory.sample_holds (valid : Bool) (code : List UInt8) :
    (Memory.sample valid code).Holds fun i => code.getD i 0 where
  frame _ _ := (by decide : toUnsigned 0 < numPhysPages)
  distinct v w hv hw _ := by
    have h1 : v < 1 := hv.1
    have h2 : w < 1 := hw.1
    omega
  bytes v hv j _ := by
    have h1 : v < 1 := hv.1
    have : v = 0 := by omega
    subst this
    rfl

theorem Memory.sample_alike (valid valid' : Bool) (code : List UInt8) :
    (Memory.sample valid code).Alike (Memory.sample valid' code) := ⟨rfl, fun _ => rfl⟩

theorem Memory.sample_resident (code : List UInt8) :
    ∀ v < (Memory.sample true code).pageTableSize, (Memory.sample true code).Resident v :=
  fun _ hv => ⟨hv, rfl⟩

end Nachos

import Nachos.Machine.VirtualMemory

/-! Virtual memory as an array of bytes. A page table that gives every page in
memory a frame of its own makes `ReadMem` and `WriteMem` the reads and writes of
one array of bytes, in little-endian order, whatever the sizes of the accesses
and however they overlap. -/

namespace Nachos
open Lib

/-! ## The bytes of a value -/

/-- What is left of a value that went through memory: a byte comes back as a
signed `char`. -/
def Width.narrow (value : BitVec 32) : Width → BitVec 32
  | .byte => (value.setWidth 8).signExtend 32
  | .half => (value.setWidth 16).setWidth 32
  | .word => value

theorem valueBytes_getElem? {width : Width} {i : Nat} (hi : i < width.size) (value : BitVec 32) :
    (valueBytes width value)[i]? = some ⟨(value >>> (8 * i)).setWidth 8⟩ := by
  rw [valueBytes, List.getElem?_map, List.getElem?_range hi]
  rfl

theorem overlay_valueBytes (image : Nat → UInt8) {width : Width} {i : Nat} (hi : i < width.size)
    (a : Nat) (value : BitVec 32) :
    overlay image a (valueBytes width value) (a + i) = ⟨(value >>> (8 * i)).setWidth 8⟩ := by
  rw [overlay, if_pos (Nat.le_add_right a i), Nat.add_sub_cancel_left, valueBytes_getElem? hi,
    Option.getD_some]

/-- The value just stored is read back. -/
theorem valueAt_overlay (image : Nat → UInt8) (a : Nat) (width : Width) (value : BitVec 32) :
    valueAt (overlay image a (valueBytes width value)) a width = width.narrow value := by
  have h0 : overlay image a (valueBytes width value) a = ⟨value.setWidth 8⟩ := by
    have h := overlay_valueBytes image (by cases width <;> decide : 0 < width.size) a value
    simpa using h
  cases width with
  | byte => simp only [valueAt, h0, Width.narrow]
  | half =>
    simp only [valueAt, h0, overlay_valueBytes image (by decide : 1 < Width.half.size),
      Width.narrow]
    exact congrArg (BitVec.setWidth 32) (fields_append value 0 8 8)
  | word =>
    simp only [valueAt, h0, overlay_valueBytes image (by decide : 1 < Width.word.size),
      overlay_valueBytes image (by decide : 2 < Width.word.size),
      overlay_valueBytes image (by decide : 3 < Width.word.size), Width.narrow]
    rw [fields_append value 16 8 8, fields_append value 8 16 8]
    refine (fields_append value 0 24 8).trans ?_
    simp

/-- A read elsewhere does not see the store. -/
theorem valueAt_overlay_of_disjoint (image : Nat → UInt8) {a b : Nat} {width : Width}
    {bs : List UInt8} (h : b + width.size ≤ a ∨ a + bs.length ≤ b) :
    valueAt (overlay image a bs) b width = valueAt image b width := by
  refine valueAt_congr fun i hi => ?_
  rcases h with h | h
  · exact overlay_of_lt (by omega)
  · exact overlay_of_le (by omega)

/-! ## Memory behind an injective page table -/

namespace Memory

/-- The pages in memory have frames of their own, and may be written. -/
structure Mapped (mem : Memory) : Prop where
  frame : ∀ v, mem.Resident v → toUnsigned (mem.pageTable v).physicalPage < numPhysPages
  distinct : ∀ v w, mem.Resident v → mem.Resident w → mem.frameOf v = mem.frameOf w → v = w
  writable : ∀ v, mem.Resident v → (mem.pageTable v).readOnly = false

/-- The byte at a virtual address. -/
def byteAt (mem : Memory) (a : Nat) : UInt8 :=
  mem.mainMemory (mem.frameOf (a / pageSize) * pageSize + a % pageSize)

theorem Mapped.holds {mem : Memory} (h : mem.Mapped) : mem.Holds mem.byteAt where
  frame := h.frame
  distinct := h.distinct
  bytes v _ j hj := by
    have hdiv : (v * pageSize + j) / pageSize = v := by
      rw [Nat.mul_comm, Nat.mul_add_div (by decide), Nat.div_eq_of_lt hj, Nat.add_zero]
    have hmod : (v * pageSize + j) % pageSize = j := by
      rw [Nat.mul_comm, Nat.mul_add_mod, Nat.mod_eq_of_lt hj]
    rw [byteAt, hdiv, hmod]

theorem Mapped.steady {mem mem' : Memory} (h : mem.Mapped) (hs : mem.Steady mem') :
    mem'.Mapped where
  frame v hv := by rw [hs.frame]; exact h.frame v ((hs.resident v).mp hv)
  distinct v w hv hw he := by
    rw [hs.frameOf, hs.frameOf] at he
    exact h.distinct v w ((hs.resident v).mp hv) ((hs.resident w).mp hw) he
  writable v hv := by rw [hs.alike.readOnly]; exact h.writable v ((hs.resident v).mp hv)

/-- The assertion at the end of `Translate`. -/
theorem translate_in_memory {mem : Memory} {addr : BitVec 32} {width : Width} {writing : Bool}
    {physAddr : Nat} {entry : TranslationEntry}
    (h : mem.translate addr width writing = .mapped physAddr entry) :
    physAddr + width.size ≤ memorySize := by
  unfold translate Nachos.translate TranslationEntry.access at h
  repeat' split at h
  all_goals cases h
  rename_i halign _ _ _ hframe
  have hoffset := offset_add_size_le (not_not.mp halign)
  simp only [pageSize, numPhysPages, memorySize] at *
  omega

theorem resident_of_translate {mem : Memory} {addr : BitVec 32} {width : Width} {writing : Bool}
    {physAddr : Nat} {entry : TranslationEntry}
    (h : mem.translate addr width writing = .mapped physAddr entry) :
    addr.toNat % width.size = 0 ∧ mem.Resident (vpnOf addr) := by
  unfold translate Nachos.translate at h
  repeat' split at h
  all_goals try cases h
  rename_i halign hsize hvalid
  exact ⟨not_not.mp halign, Nat.lt_of_not_le hsize, by simpa using hvalid⟩

section
variable {mem : Memory} (h : mem.Mapped) {addr : BitVec 32} {width : Width}
include h

/-- The aligned accesses to pages in memory go through. -/
theorem Mapped.translate_eq (ha : addr.toNat % width.size = 0) (hv : mem.Resident (vpnOf addr))
    (writing : Bool) : mem.translate addr width writing =
      .mapped (mem.frameOf (vpnOf addr) * pageSize + addr.toNat % pageSize)
        (mem.touched addr writing) := by
  have hframe : ¬ toUnsigned (mem.pageTable (vpnOf addr)).physicalPage ≥ numPhysPages :=
    Int.not_le.mpr (h.frame _ hv)
  have hro := h.writable _ hv
  rw [translate, Nachos.translate, if_neg (not_not.mpr ha), if_neg (Nat.not_le.mpr hv.1),
    if_neg (by simp [hv.2]), TranslationEntry.access, if_neg (by simp [hro]), if_neg hframe]
  rfl

theorem Mapped.readMem_eq (ha : addr.toNat % width.size = 0) (hv : mem.Resident (vpnOf addr)) :
    mem.readMem addr width = .ok (valueAt mem.byteAt addr.toNat width,
      mem.setEntry addr (mem.touched addr false)) := by
  rw [readMem, h.translate_eq ha hv, ← h.holds.valueAt ha hv]

/-- A store that goes through is a store into the array of bytes. -/
theorem Mapped.writeMem_ok {value : BitVec 32} {mem' : Memory}
    (hw : mem.writeMem addr width value = .ok mem') :
    mem.Resident (vpnOf addr) ∧ addr.toNat % width.size = 0 ∧ mem.Steady mem' ∧
      mem'.Holds (overlay mem.byteAt addr.toNat (valueBytes width value)) := by
  rcases Memory.writeMem_cases h.holds addr width value with
    he | ⟨which, _, he⟩ | ⟨_, _, he, hs, hv, ha, hh⟩
  · rw [he] at hw; cases hw
  · rw [he] at hw; cases hw
  · rw [he] at hw
    cases hw
    exact ⟨hv, ha, hs, hh⟩

end

theorem writeMem_eq_ok {mem mem' : Memory} {addr : BitVec 32} {width : Width}
    {value : BitVec 32} (hw : mem.writeMem addr width value = .ok mem') :
    ∃ physAddr entry, mem.translate addr width true = .mapped physAddr entry ∧
      mem' = { mem.setEntry addr entry with
        mainMemory := overlay mem.mainMemory physAddr (valueBytes width value) } := by
  unfold writeMem at hw
  split at hw
  · cases hw
  · rename_i physAddr entry ht
    cases hw
    exact ⟨physAddr, entry, ht, rfl⟩

theorem writeMem_dirty {mem mem' : Memory} {addr : BitVec 32} {width : Width} {value : BitVec 32}
    (hw : mem.writeMem addr width value = .ok mem') :
    (mem'.pageTable (vpnOf addr)).dirty = true := by
  obtain ⟨physAddr, entry, ht, rfl⟩ := writeMem_eq_ok hw
  have hentry : entry.dirty = true := by
    unfold translate Nachos.translate TranslationEntry.access at ht
    repeat' split at ht
    all_goals cases ht
    exact Bool.or_true _
  simpa [setEntry] using hentry

/-- A store changes neither which accesses are refused nor why. -/
theorem writeMem_outcome {mem mem' : Memory} {addr : BitVec 32} {width : Width}
    {value : BitVec 32} (hw : mem.writeMem addr width value = .ok mem') (b : BitVec 32) (w : Width)
    (writing : Bool) :
    (mem'.translate b w writing).outcome = (mem.translate b w writing).outcome := by
  obtain ⟨physAddr, entry, ht, rfl⟩ := writeMem_eq_ok hw
  refine translate_outcome (fun v => ?_) mem.pageTableSize b w writing
  simp only [setEntry, Function.update_apply]
  split
  · rename_i hv
    rw [hv]
    exact translate_mapped ht
  · exact ⟨rfl, rfl, rfl⟩

theorem readMem_fst (mem : Memory) (b : BitVec 32) (w : Width) :
    (mem.readMem b w).map Prod.fst = match (mem.translate b w false).outcome with
      | .inl which => .error which
      | .inr physAddr => .ok (valueAt mem.mainMemory physAddr w) := by
  unfold readMem
  cases mem.translate b w false <;> rfl

/-- What is known of memory once `WriteMem` has stored `value`. -/
structure Stored (mem mem' : Memory) (addr : BitVec 32) (width : Width) (value : BitVec 32) :
    Prop where
  /-- Reading it back gives as much of the value as was stored. -/
  back : ∃ mem'', mem'.readMem addr width = .ok (width.narrow value, mem'')
  /-- Any access, overlapping or not, finds the bytes of the value in their
  places, and elsewhere those that were there. -/
  overlapping : ∀ b w, b.toNat % w.size = 0 → mem.Resident (vpnOf b) →
    ∃ mem'', mem'.readMem b w =
      .ok (valueAt (overlay mem.byteAt addr.toNat (valueBytes width value)) b.toNat w, mem'')
  /-- An access that does not overlap comes to what it came to before. -/
  elsewhere : ∀ b w, b.toNat + w.size ≤ addr.toNat ∨ addr.toNat + width.size ≤ b.toNat →
    (mem'.readMem b w).map Prod.fst = (mem.readMem b w).map Prod.fst
  dirty : (mem'.pageTable (vpnOf addr)).dirty = true
  mapped : mem'.Mapped

theorem Mapped.stored {mem mem' : Memory} (h : mem.Mapped) {addr : BitVec 32} {width : Width}
    {value : BitVec 32} (hw : mem.writeMem addr width value = .ok mem') :
    mem.Stored mem' addr width value := by
  obtain ⟨hv, ha, hs, hh⟩ := h.writeMem_ok hw
  have h' := h.steady hs
  have hread (b : BitVec 32) (w : Width) (hb : b.toNat % w.size = 0)
      (hr : mem.Resident (vpnOf b)) : valueAt mem'.byteAt b.toNat w =
        valueAt (overlay mem.byteAt addr.toNat (valueBytes width value)) b.toNat w := by
    have hr' := (hs.resident _).mpr hr
    rw [← h'.holds.valueAt hb hr', ← hh.valueAt hb hr']
  have hover (b : BitVec 32) (w : Width) (hb : b.toNat % w.size = 0)
      (hr : mem.Resident (vpnOf b)) : ∃ mem'', mem'.readMem b w =
        .ok (valueAt (overlay mem.byteAt addr.toNat (valueBytes width value)) b.toNat w, mem'') :=
    ⟨_, by rw [h'.readMem_eq hb ((hs.resident _).mpr hr), hread b w hb hr]⟩
  refine ⟨?_, hover, ?_, writeMem_dirty hw, h'⟩
  · rw [← valueAt_overlay mem.byteAt addr.toNat]
    exact hover addr width ha hv
  · intro b w hdisjoint
    cases ht : mem.translate b w false with
    | exception which => rw [readMem_fst, readMem_fst, writeMem_outcome hw, ht]; rfl
    | mapped physAddr entry =>
      obtain ⟨hb, hr⟩ := resident_of_translate ht
      have hsame := valueAt_overlay_of_disjoint mem.byteAt
        ((valueBytes_length width value).symm ▸ hdisjoint)
      rw [h.readMem_eq hb hr, h'.readMem_eq hb ((hs.resident _).mpr hr), hread b w hb hr, hsame]
      rfl

end Memory

/-- Virtual memory behind an injective page table is one little-endian array of
bytes, for accesses of all sizes at all addresses. Aligned accesses to pages in
memory go through, and a store that goes through is seen as such by every later
access; the assertion at the end of `Translate` holds; and a call that returns
`FALSE` enters the exception handler with memory as it was. -/
theorem memory_coherent {mem : Memory} (h : mem.Mapped) (r : Registers) (addr : BitVec 32)
    (width : Width) (value : BitVec 32) :
    (addr.toNat % width.size = 0 → mem.Resident (vpnOf addr) →
      (∃ mem', mem.writeMem addr width value = .ok mem') ∧
      ∃ mem', mem.readMem addr width = .ok (valueAt mem.byteAt addr.toNat width, mem')) ∧
    (∀ mem', mem.writeMem addr width value = .ok mem' → mem.Stored mem' addr width value) ∧
    (∀ writing physAddr entry, mem.translate addr width writing = .mapped physAddr entry →
      physAddr + width.size ≤ memorySize) ∧
    (∀ which rest o, mem.writeMem addr width value = .error which →
      (Machine.mk r mem).exec (.writeMem addr width value rest) = .ok o →
        ∃ r', o = .raised which ⟨r', mem⟩) ∧
    ∀ which rest o, mem.readMem addr width = .error which →
      (Machine.mk r mem).exec (.readMem addr width rest) = .ok o →
        ∃ r', o = .raised which ⟨r', mem⟩ := by
  refine ⟨fun ha hv => ⟨?_, _, h.readMem_eq ha hv⟩, fun _ => h.stored,
    fun _ _ _ => Memory.translate_in_memory, fun which rest o he hexec => ?_,
    fun which rest o he hexec => ?_⟩
  · rw [Memory.writeMem, h.translate_eq ha hv]
    exact ⟨_, rfl⟩
  · rw [Machine.exec, he] at hexec
    exact Machine.raiseException_eq_ok hexec
  · rw [Machine.exec, he] at hexec
    exact Machine.raiseException_eq_ok hexec

theorem Memory.sample_mapped (code : List UInt8) : (Memory.sample true code).Mapped where
  frame := (sample_holds true code).frame
  distinct := (sample_holds true code).distinct
  writable _ _ := rfl

/-- The half word 0x1234 stored over the bytes 1, 2, 3, 4, and the word then read. -/
theorem memory_coherent_half : ∃ mem mem',
    (Memory.sample true [1, 2, 3, 4]).writeMem 2 .half 0x1234 = .ok mem ∧
      mem.readMem 0 .word = .ok (0x12340201, mem') := by
  have hc := memory_coherent (Memory.sample_mapped [1, 2, 3, 4]) (fun _ => 0) 2 .half 0x1234
  obtain ⟨⟨mem, hmem⟩, -⟩ := hc.1 rfl ⟨by decide, rfl⟩
  obtain ⟨mem', hread⟩ := (hc.2.1 mem hmem).overlapping 0 .word rfl ⟨by decide, rfl⟩
  exact ⟨mem, mem', hmem, hread⟩

end Nachos

import Nachos.Userprog.BitMap

/-! Allocation of a file's data sectors (`Allocate` and `Deallocate` of
filehdr.cc). The sectors are taken from the free map one by one, each the lowest
clear one, and entered in the header; a file of more sectors than the header has
room for runs over the end of its array. -/

namespace Nachos
open Lib

/-- The macro of utility.h. -/
def divRoundUp (n s : Int) : Int := n.tdiv s + if 0 < n.tmod s then 1 else 0

namespace FileHeader

/-- `dataSectors[i] = sector`. -/
def setSector (h : FileHeader) (i : Fin numDirect) (sector : Int) : FileHeader :=
  { h with dataSectors := Function.update h.dataSectors i (.ofInt 32 sector) }

/-- The loop of `Allocate`, from `dataSectors[i]` on. -/
def allocateFrom (h : FileHeader) (freeMap : BitMap) (i : Nat) :
    Nat → Except Fault (FileHeader × BitMap)
  | 0 => .ok (h, freeMap)
  | n + 1 =>
    if hi : i < numDirect then
      let (sector, freeMap) := freeMap.find
      allocateFrom (h.setSector ⟨i, hi⟩ sector) freeMap (i + 1) n
    else .error .undefined

/-- `FileHeader::Allocate`. -/
def allocate (h : FileHeader) (freeMap : BitMap) (fileSize : BitVec 32) :
    Except Fault (Bool × FileHeader × BitMap) :=
  let numSectors := divRoundUp fileSize.toInt sectorSize
  let h := { h with numBytes := fileSize, numSectors := .ofInt 32 numSectors }
  if (freeMap.numClear : Int) < numSectors then .ok (false, h, freeMap)
  else do
    let (h, freeMap) ← h.allocateFrom freeMap 0 numSectors.toNat
    .ok (true, h, freeMap)

/-- The loop of `Deallocate`, from `dataSectors[i]` on. -/
def deallocateFrom (h : FileHeader) (freeMap : BitMap) (i : Nat) : Nat → Except Fault BitMap
  | 0 => .ok freeMap
  | n + 1 =>
    if i < numDirect then do
      let marked ← freeMap.test (h.sector i)
      if marked then do
        let freeMap ← freeMap.clear (h.sector i)
        h.deallocateFrom freeMap (i + 1) n
      else .error (.assertion .deallocate)
    else .error .undefined

/-- `FileHeader::Deallocate`. -/
def deallocate (h : FileHeader) (freeMap : BitMap) : Except Fault BitMap :=
  h.deallocateFrom freeMap 0 h.numSectors.toInt.toNat

/-- The data sectors the header lists. -/
def listed (h : FileHeader) : List Int := (List.range h.numSectors.toInt.toNat).map h.sector

/-- The header lists as many sectors as its length takes, and has room for them. -/
structure Listed (h : FileHeader) : Prop where
  count : h.numSectors.toInt.toNat = h.blocks
  fits : h.blocks ≤ numDirect

variable {h h' : FileHeader} {m m' : BitMap} {i n : Nat}

theorem mem_listed {s : Int} :
    s ∈ h.listed ↔ ∃ b, b < h.numSectors.toInt.toNat ∧ h.sector b = s := by
  unfold listed
  simp only [List.mem_map, List.mem_range]

theorem Listed.sound (hl : h.Listed) (hnodup : h.listed.Nodup)
    (hbound : ∀ s ∈ h.listed, 0 ≤ s ∧ s < Nachos.numSectors) : h.Sound where
  fits := hl.fits
  onDisk := fun b hb => hbound _ (mem_listed.mpr ⟨b, by rw [hl.count]; exact hb, rfl⟩)
  distinct := fun i j hi hj heq => by
    rw [← hl.count] at hi hj
    exact List.inj_on_of_nodup_map hnodup (List.mem_range.mpr hi) (List.mem_range.mpr hj) heq

theorem Listed.outside (hl : h.Listed) (hbound : ∀ s ∈ h.listed, 0 ≤ s ∧ s < Nachos.numSectors)
    {s : Nat} (hs : (s : Int) ∉ h.listed) : h.Outside s := by
  intro b hb heq
  rw [← hl.count] at hb
  have hmem := mem_listed.mpr ⟨b, hb, rfl⟩
  have := hbound _ hmem
  exact hs (by rw [heq, Int.toNat_of_nonneg this.1]; exact hmem)

/-! ## Allocate -/

theorem divRoundUp_natCast (n : Nat) :
    divRoundUp n sectorSize = ((n + (sectorSize - 1)) / sectorSize : Nat) := by
  have hmod : (n : Int).tmod sectorSize = (n % sectorSize : Nat) := rfl
  unfold divRoundUp
  rw [FileHeader.tdiv_sectorSize, hmod]
  simp only [sectorSize]
  split <;> omega

theorem divRoundUp_neg (n : Nat) :
    divRoundUp (-(n : Int)) sectorSize = -((n / sectorSize : Nat) : Int) := by
  have hdiv : (-(n : Int)).tdiv sectorSize = -((n / sectorSize : Nat) : Int) := Int.neg_tdiv n _
  have hmod : (-(n : Int)).tmod sectorSize = -((n % sectorSize : Nat) : Int) := Int.neg_tmod n _
  unfold divRoundUp
  rw [hdiv, hmod, if_neg (by omega), Int.add_zero]

theorem toNat_divRoundUp (z : Int) :
    (divRoundUp z sectorSize).toNat = (z.toNat + (sectorSize - 1)) / sectorSize := by
  obtain ⟨n, rfl | rfl⟩ := Int.eq_nat_or_neg z
  · rw [divRoundUp_natCast, Int.toNat_natCast, Int.toNat_natCast]
  · rw [divRoundUp_neg]
    simp only [sectorSize]
    omega

theorem isInt_divRoundUp {z : Int} (hz : IsInt z) : IsInt (divRoundUp z sectorSize) := by
  unfold IsInt at *
  obtain ⟨n, rfl | rfl⟩ := Int.eq_nat_or_neg z
  · rw [divRoundUp_natCast]
    simp only [sectorSize]
    omega
  · rw [divRoundUp_neg]
    simp only [sectorSize]
    omega

theorem sector_setSector (hi : i < numDirect) {s : Int} (hs : IsInt s) :
    (h.setSector ⟨i, hi⟩ s).sector i = s := by
  simp only [setSector, sector, dif_pos hi, Function.update_self]
  exact toInt_ofInt hs

theorem sector_setSector_of_ne (hi : i < numDirect) (s : Int) {k : Nat} (hk : k ≠ i) :
    (h.setSector ⟨i, hi⟩ s).sector k = h.sector k := by
  simp only [setSector, sector]
  by_cases hkd : k < numDirect
  · rw [dif_pos hkd, dif_pos hkd, Function.update_of_ne fun heq => hk (Fin.mk.inj heq)]
  · rw [dif_neg hkd, dif_neg hkd]

theorem Listed.length_listed (hl : h.Listed) :
    h.listed.length = (divRoundUp h.numBytes.toInt sectorSize).toNat := by
  unfold listed
  rw [List.length_map, List.length_range, hl.count, toNat_divRoundUp]
  rfl

/-- What the loop of `Allocate` does while the map has clear bits and the header
has room: it enters the sectors `ss`, all different and clear before, and leaves
no clear one below any of them. -/
theorem allocateFrom_eq (hm : IsInt m.numBits) (hn : n ≤ m.numClear) (hi : i + n ≤ numDirect) :
    ∃ (ss : List Nat) (h' : FileHeader) (m' : BitMap), h.allocateFrom m i n = .ok (h', m') ∧
      ss.length = n ∧ ss.Nodup ∧ (∀ s ∈ ss, s < m.numBits ∧ m.bit s = false) ∧
      (m'.numBits = m.numBits ∧ ∀ s, m'.bit s = (m.bit s || decide (s ∈ ss))) ∧
      (∀ s ∈ ss, ∀ j, j < s → m'.bit j = true) ∧
      (h'.numBytes = h.numBytes ∧ h'.numSectors = h.numSectors) ∧
      (∀ k, k < i → h'.sector k = h.sector k) ∧
      ∀ k (s : Nat), ss[k]? = some s → h'.sector (i + k) = s := by
  induction n generalizing h m i with
  | zero =>
    exact ⟨[], h, m, rfl, rfl, List.nodup_nil, by simp, ⟨rfl, by simp⟩, by simp, ⟨rfl, rfl⟩,
      fun _ _ => rfl, by simp⟩
  | succ n ih =>
    obtain ⟨s, hs, hclear, hleast, hfind⟩ := BitMap.find_of_clear (b := m) (by omega)
    have hcount := BitMap.numClear_setBit hs hclear
    have hlt : i < numDirect := by omega
    obtain ⟨ss, h', m', hok, hlen, hnodup, hfresh, ⟨hbits, hbit⟩, hfirst, hsize, hlow, hhigh⟩ :=
      ih (h := h.setSector ⟨i, hlt⟩ s) (m := m.setBit s) (i := i + 1) hm (by omega) (by omega)
    have hnotin : s ∉ ss := by
      intro hmem
      have := (hfresh s hmem).2
      rw [BitMap.bit_setBit] at this
      simp at this
    refine ⟨s :: ss, h', m', ?_, by rw [List.length_cons, hlen],
      List.nodup_cons.mpr ⟨hnotin, hnodup⟩, ?_, ⟨hbits, ?_⟩, ?_, hsize, ?_, ?_⟩
    · rw [allocateFrom, dif_pos hlt, hfind]
      exact hok
    · intro x hx
      rcases List.mem_cons.mp hx with rfl | hx
      · exact ⟨hs, hclear⟩
      · obtain ⟨hxlt, hxbit⟩ := hfresh x hx
        rw [BitMap.bit_setBit, Bool.or_eq_false_iff] at hxbit
        exact ⟨hxlt, hxbit.1⟩
    · intro x
      rw [hbit, BitMap.bit_setBit, Bool.or_assoc]
      congr 1
      rw [Bool.eq_iff_iff]
      simp
    · intro x hx j hj
      rcases List.mem_cons.mp hx with rfl | hx
      · rw [hbit, BitMap.bit_setBit, hleast j hj, Bool.true_or, Bool.true_or]
      · exact hfirst x hx j hj
    · intro k hk
      rw [hlow k (by omega), sector_setSector_of_ne hlt s (by omega)]
    · intro k x hx
      cases k with
      | zero =>
        cases hx
        have hint : IsInt (s : Int) := by
          unfold IsInt at *
          omega
        rw [Nat.add_zero, hlow i (by omega), sector_setSector hlt hint]
      | succ k =>
        rw [← hhigh k x hx]
        congr 1
        omega

/-- A header without room for all the sectors. -/
theorem allocateFrom_overflow (hi : i ≤ numDirect) (hn : numDirect < i + n) :
    h.allocateFrom m i n = .error .undefined := by
  induction n generalizing h m i with
  | zero => omega
  | succ n ih =>
    unfold allocateFrom
    by_cases hlt : i < numDirect
    · rw [dif_pos hlt]
      exact ih (by omega) (by omega)
    · rw [dif_neg hlt]

/-- What a successful `Allocate` does: the header lists the sectors `ss`, which
were clear before and are marked now; below them none is left clear. -/
theorem allocate_eq {size : BitVec 32} (hm : IsInt m.numBits)
    (h : h.allocate m size = .ok (true, h', m')) :
    ∃ ss : List Nat, h'.listed = ss.map Int.ofNat ∧ h'.Listed ∧ h'.numBytes = size ∧ ss.Nodup ∧
      (∀ s ∈ ss, s < m.numBits ∧ m.bit s = false) ∧
      (m'.numBits = m.numBits ∧ ∀ s, m'.bit s = (m.bit s || decide (s ∈ ss))) ∧
      ∀ s ∈ ss, ∀ j, j < s → m'.bit j = true := by
  unfold allocate at h
  dsimp only at h
  split at h
  · cases h
  · rename_i hroom
    have hsectors : (divRoundUp size.toInt sectorSize).toNat ≤ m.numClear := by omega
    obtain ⟨⟨h₁, m₁⟩, hloop, hret⟩ := bind_eq_ok.mp h
    obtain ⟨rfl, rfl⟩ : h₁ = h' ∧ m₁ = m' := by
      cases hret
      exact ⟨rfl, rfl⟩
    by_cases hfits : numDirect < 0 + (divRoundUp size.toInt sectorSize).toNat
    · rw [allocateFrom_overflow (by decide) hfits] at hloop
      cases hloop
    · obtain ⟨ss, h₂, m₂, hok, hlen, hnodup, hfresh, hbits, hfirst, ⟨hbytes, hsec⟩, -, hentry⟩ :=
        allocateFrom_eq hm hsectors (Nat.le_of_not_lt hfits)
      obtain ⟨rfl, rfl⟩ : h₂ = h₁ ∧ m₂ = m₁ := by
        rw [hok] at hloop
        cases hloop
        exact ⟨rfl, rfl⟩
      have hnum : h₂.numSectors.toInt.toNat = ss.length := by
        rw [hsec, toInt_ofInt (isInt_divRoundUp (isInt_toInt size)), hlen]
      have hblocks : h₂.blocks = ss.length := by
        unfold blocks length fileLength
        rw [hbytes, hlen, toNat_divRoundUp]
      refine ⟨ss, ?_, ⟨hnum.trans hblocks.symm, by omega⟩, hbytes, hnodup, hfresh, hbits, hfirst⟩
      unfold listed
      apply List.ext_getElem?
      intro k
      rw [hnum, List.getElem?_map, List.getElem?_map]
      by_cases hk : k < ss.length
      · rw [List.getElem?_range hk, List.getElem?_eq_getElem hk]
        have := hentry k _ (List.getElem?_eq_getElem hk)
        rw [Nat.zero_add] at this
        rw [Option.map_some, Option.map_some, this]
        rfl
      · rw [List.getElem?_eq_none (by rw [List.length_range]; omega),
          List.getElem?_eq_none (by omega)]
        rfl

/-- `Allocate` returns for every size a header has room for. -/
theorem allocate_returns {size : BitVec 32} (hm : IsInt m.numBits)
    (hsize : size.toInt ≤ maxFileSize) : ∃ r, h.allocate m size = .ok r := by
  unfold allocate
  dsimp only
  split
  · exact ⟨_, rfl⟩
  · rename_i hroom
    have hsectors := toNat_divRoundUp size.toInt
    obtain ⟨ss, h', m', hok, -⟩ := allocateFrom_eq
      (h := { h with numBytes := size, numSectors := .ofInt 32 (divRoundUp size.toInt sectorSize) })
      (n := (divRoundUp size.toInt sectorSize).toNat) (i := 0) hm (by omega)
      (by simp only [sectorSize, maxFileSize, numDirect] at *; omega)
    rw [hok]
    exact ⟨_, rfl⟩

/-- With enough clear sectors, a file that is larger than a header has room for
runs over the end of the array. -/
theorem allocate_overflow {size : BitVec 32}
    (hclear : ¬ (m.numClear : Int) < divRoundUp size.toInt sectorSize)
    (hsize : (maxFileSize : Int) < size.toInt) : h.allocate m size = .error .undefined := by
  have hsectors := toNat_divRoundUp size.toInt
  unfold allocate
  dsimp only
  rw [if_neg hclear, allocateFrom_overflow (by decide)
    (by simp only [sectorSize, maxFileSize, numDirect] at *; omega), error_bind]

theorem allocate_false_iff {size : BitVec 32} : (∃ r, h.allocate m size = .ok (false, r)) ↔
    (m.numClear : Int) < divRoundUp size.toInt sectorSize := by
  unfold allocate
  dsimp only
  split
  · exact iff_of_true ⟨_, rfl⟩ ‹_›
  · refine iff_of_false ?_ ‹_›
    intro ⟨r, hr⟩
    obtain ⟨_, -, hret⟩ := bind_eq_ok.mp hr
    cases hret

/-! ## Deallocate -/

/-- The loop of `Deallocate` clears the sectors it goes over; if they are all
different and marked, its assertion holds at each of them. -/
theorem deallocateFrom_eq (hi : i + n ≤ numDirect)
    (hmarked : ∀ k, k < n → 0 ≤ h.sector (i + k) ∧ h.sector (i + k) < m.numBits ∧
      m.bit (h.sector (i + k)).toNat = true)
    (hdistinct : ∀ k l, k < n → l < n → h.sector (i + k) = h.sector (i + l) → k = l) :
    ∃ m', h.deallocateFrom m i n = .ok m' ∧ m'.numBits = m.numBits ∧
      ∀ s : Nat, m'.bit s = true ↔ m.bit s = true ∧ ∀ k, k < n → h.sector (i + k) ≠ s := by
  induction n generalizing m i with
  | zero => exact ⟨m, rfl, rfl, by simp⟩
  | succ n ih =>
    obtain ⟨hlo, hhi, hbit⟩ := hmarked 0 (by omega)
    rw [Nat.add_zero] at hlo hhi hbit
    have hstep : ∀ k, i + 1 + k = i + (k + 1) := by intro k; omega
    obtain ⟨m', hok, hbits, hiff⟩ := ih (m := m.clearBit (h.sector i).toNat) (i := i + 1) (by omega)
      (by
        intro k hk
        rw [hstep]
        obtain ⟨hlo', hhi', hbit'⟩ := hmarked (k + 1) (by omega)
        refine ⟨hlo', hhi', ?_⟩
        have hne : (h.sector (i + (k + 1))).toNat ≠ (h.sector i).toNat := by
          intro heq
          have heq' : h.sector (i + (k + 1)) = h.sector i := by omega
          have := hdistinct (k + 1) 0 (by omega) (by omega) heq'
          omega
        rw [BitMap.bit_clearBit, hbit', Bool.true_and]
        exact bne_iff_ne.mpr hne)
      (by
        intro k l hk hl heq
        rw [hstep, hstep] at heq
        have := hdistinct (k + 1) (l + 1) (by omega) (by omega) heq
        omega)
    refine ⟨m', ?_, hbits, fun s => ?_⟩
    · rw [deallocateFrom, if_pos (by omega), BitMap.test, if_pos ⟨hlo, hhi⟩, ok_bind, hbit,
        if_pos rfl, BitMap.clear, if_pos ⟨hlo, hhi⟩, ok_bind, hok]
    · rw [hiff, BitMap.bit_clearBit, Bool.and_eq_true, bne_iff_ne]
      constructor
      · intro ⟨⟨hs, hne⟩, hrest⟩
        refine ⟨hs, fun k hk => ?_⟩
        cases k with
        | zero => rw [Nat.add_zero]; omega
        | succ k => rw [← hstep]; exact hrest k (by omega)
      · intro ⟨hs, hall⟩
        refine ⟨⟨hs, ?_⟩, fun k hk => ?_⟩
        · have := hall 0 (by omega)
          rw [Nat.add_zero] at this
          omega
        · rw [hstep]
          exact hall (k + 1) (by omega)

theorem deallocate_eq (hl : h.Listed) (hnodup : h.listed.Nodup)
    (hmarked : ∀ s ∈ h.listed, ∃ j : Nat, s = j ∧ j < m.numBits ∧ m.bit j = true) :
    ∃ m', h.deallocate m = .ok m' ∧ m'.numBits = m.numBits ∧
      ∀ s : Nat, m'.bit s = true ↔ m.bit s = true ∧ (s : Int) ∉ h.listed := by
  have hfits := hl.fits
  rw [← hl.count] at hfits
  obtain ⟨m', hok, hbits, hiff⟩ := deallocateFrom_eq (h := h) (m := m) (i := 0)
    (n := h.numSectors.toInt.toNat) (by omega)
    (fun k hk => by
      rw [Nat.zero_add]
      obtain ⟨j, hj, hlt, hbit⟩ := hmarked _ (mem_listed.mpr ⟨k, hk, rfl⟩)
      rw [hj]
      exact ⟨by omega, by omega, by rw [Int.toNat_natCast]; exact hbit⟩)
    (fun k l hk hl heq => by
      rw [Nat.zero_add, Nat.zero_add] at heq
      exact List.inj_on_of_nodup_map hnodup (List.mem_range.mpr hk) (List.mem_range.mpr hl) heq)
  refine ⟨m', hok, hbits, fun s => ?_⟩
  rw [hiff, mem_listed]
  simp only [Nat.zero_add, not_exists, not_and, ne_eq]

end FileHeader
end Nachos

import Nachos.Lib.Run
import Nachos.Filesys.OpenFile

/-! An open file is a byte array of fixed length. The abstract file is a list of
bytes: a request is cut at its end, a read returns a block of it and a write
replaces one. The sectors of a file with a sound header, read one after the
other, are that list, and every sequence of requests is answered as by it. -/

namespace Nachos
open Lib

/-! ## The abstract file -/

/-- How many of the `n` bytes from `p` on lie in a file of the given length. -/
def cut (length n p : Int) : Int := max 0 (min n (length - p))

inductive Request
  | readAt (f : OpenFile) (numBytes position : Int)
  | writeAt (f : OpenFile) (src : Nat → UInt8) (numBytes position : Int) (fresh : Nat → UInt8)

/-- What a request returns: the bytes read, or the number of bytes written. -/
inductive Reply
  | bytes (bs : List UInt8)
  | count (n : Int)
  deriving DecidableEq

namespace Request

def answer : Request → List UInt8 → Reply × List UInt8
  | .readAt _ n p, bs => (.bytes (readBytes bs p.toNat (cut bs.length n p).toNat), bs)
  | .writeAt _ src n p _, bs =>
    (.count (cut bs.length n p), patch bs p.toNat (bytesAt src 0 (cut bs.length n p).toNat))

def answers : List Request → List UInt8 → List Reply × List UInt8
  | [], bs => ([], bs)
  | r :: rs, bs =>
    let (a, bs) := r.answer bs
    let (as, bs) := answers rs bs
    (a :: as, bs)

/-- The request as the code carries it out. -/
def serve : Request → Sectors → Except Fault (Reply × Sectors)
  | .readAt f n p, d => do
    let bs ← f.readAt d n p
    .ok (.bytes bs, d)
  | .writeAt f src n p fresh, d => do
    let (n, d) ← f.writeAt d src n p fresh
    .ok (.count n, d)

def serves : List Request → Sectors → Except Fault (List Reply × Sectors)
  | [], d => .ok ([], d)
  | r :: rs, d => do
    let (a, d) ← r.serve d
    let (as, d) ← serves rs d
    .ok (a :: as, d)

/-- The request goes through a handle on the file with header `h`. -/
def On (h : FileHeader) : Request → Prop
  | .readAt f _ _ => f.hdr = h
  | .writeAt f _ _ _ _ => f.hdr = h

/-- The position is not negative, and the end of the request is an `int`. -/
def InRange : Request → Prop
  | .readAt _ n p => 0 ≤ p ∧ IsInt (p + n)
  | .writeAt _ _ n p _ => 0 ≤ p ∧ IsInt (p + n)

end Request

/-! ## The data sectors -/

namespace FileHeader

def length (h : FileHeader) : Nat := h.fileLength.toNat

/-- The number of sectors the data takes. -/
def blocks (h : FileHeader) : Nat := (h.length + (sectorSize - 1)) / sectorSize

/-- The header lists as many data sectors as its length takes, all different. -/
structure Sound (h : FileHeader) : Prop where
  fits : h.blocks ≤ numDirect
  onDisk : ∀ i, i < h.blocks → 0 ≤ h.sector i ∧ h.sector i < Nachos.numSectors
  distinct : ∀ i j, i < h.blocks → j < h.blocks → h.sector i = h.sector j → i = j

/-- Byte `j` of the data sectors. -/
def byte (h : FileHeader) (d : Sectors) (j : Nat) : UInt8 :=
  (d (h.sector (j / sectorSize)).toNat).mem j

def contents (h : FileHeader) (d : Sectors) : List UInt8 := bytesAt (h.byte d) 0 h.length

/-- Sector `s` holds no data of the file. -/
def Outside (h : FileHeader) (s : Nat) : Prop := ∀ i, i < h.blocks → s ≠ (h.sector i).toNat

theorem mem_block (s : Sector) (i j : Nat) : s.mem (sectorSize * i + j) = s.mem j := by
  unfold Sector.mem
  congr 1
  apply Fin.ext
  simp only [Fin.ofNat, sectorSize]
  omega

theorem mem_ofMem (m : Nat → UInt8) (pos : Nat) {j : Nat} (hj : j < sectorSize) :
    (Sector.ofMem m pos).mem j = m (pos + j) := by
  unfold Sector.mem Sector.ofMem
  simp only [Fin.ofNat]
  rw [Nat.mod_eq_of_lt hj]

/-- A header written to a sector and fetched again is the same header. -/
theorem ofMem_mem (h : FileHeader) : ofMem (Sector.ofMem h.mem 0).mem = h := by
  have hword : ∀ j, j < sectorSize / 4 → wordOf (Sector.ofMem h.mem 0).mem (4 * j) = h.word j := by
    intro j hj
    rw [← wordOf_wordsMem h.word j]
    refine wordOf_congr fun k hk => ?_
    rw [mem_ofMem _ _ (by simp only [sectorSize] at *; omega), Nat.zero_add]
    rfl
  have hdata : ∀ i : Fin numDirect,
      wordOf (Sector.ofMem h.mem 0).mem (8 + 4 * i) = h.dataSectors i := by
    intro i
    rw [show 8 + 4 * (i : Nat) = 4 * (i + 2) by omega,
      hword _ (by have := i.isLt; simp only [sectorSize, numDirect] at *; omega)]
    exact dif_pos i.isLt
  cases h
  rw [ofMem, hword 0 (by decide), funext hdata]
  rw [show (4 : Nat) = 4 * 1 from rfl, hword 1 (by decide)]
  rfl

theorem tdiv_sectorSize (n : Nat) : (n : Int).tdiv sectorSize = (n / sectorSize : Nat) := rfl

/-- A byte of the file lies in one of its sectors. -/
theorem div_lt_blocks (h : FileHeader) {j : Nat} (hj : j < h.length) :
    j / sectorSize < h.blocks := by
  unfold blocks
  simp only [sectorSize]
  omega

variable {h : FileHeader} {d : Sectors}

theorem byte_block (i : Nat) {j : Nat} (hj : j < sectorSize) :
    h.byte d (sectorSize * i + j) = (d (h.sector i).toNat).mem j := by
  unfold byte
  rw [mem_block, show (sectorSize * i + j) / sectorSize = i by simp only [sectorSize] at *; omega]

theorem byteToSector_block {i : Nat} (hi : i < numDirect) :
    h.byteToSector ((i : Int) * sectorSize) = .ok (h.sector i) := by
  have hdiv : ((i : Int) * sectorSize).tdiv sectorSize = i := by
    rw [show (i : Int) * sectorSize = ((i * sectorSize : Nat) : Int) by simp, tdiv_sectorSize]
    simp
  unfold byteToSector
  simp only [hdiv]
  rw [if_pos (by simp only [numDirect] at *; omega), Int.toNat_natCast]

namespace Sound

theorem read (hs : h.Sound) {i : Nat} (hi : i < h.blocks) :
    d.readSector (h.sector i) = .ok (d (h.sector i).toNat) :=
  if_pos (hs.onDisk i hi)

theorem write (hs : h.Sound) {i : Nat} (hi : i < h.blocks) (data : Sector) :
    d.writeSector (h.sector i) data = .ok (Function.update d (h.sector i).toNat data) :=
  if_pos (hs.onDisk i hi)

theorem sector_ne (hs : h.Sound) {i j : Nat} (hi : i < h.blocks) (hj : j < h.blocks)
    (hne : i ≠ j) : (h.sector i).toNat ≠ (h.sector j).toNat := by
  intro heq
  have hi' := hs.onDisk i hi
  have hj' := hs.onDisk j hj
  exact hne (hs.distinct i j hi hj (by omega))

theorem readSectors (hs : h.Sound) {i n : Nat} (hn : i + n ≤ h.blocks) :
    h.readSectors d i n = .ok (bytesAt (h.byte d) (sectorSize * i) (sectorSize * n)) := by
  induction n generalizing i with
  | zero => rfl
  | succ n ih =>
    have hi : i < h.blocks := by omega
    have hfits := hs.fits
    have hrest := ih (i := i + 1) (by omega)
    have hblock : bytesAt (d (h.sector i).toNat).mem 0 sectorSize =
        bytesAt (h.byte d) (sectorSize * i) sectorSize := by
      refine bytesAt_congr fun j hj => ?_
      rw [byte_block i hj, Nat.zero_add]
    rw [FileHeader.readSectors, byteToSector_block (by omega), ok_bind, hs.read hi, ok_bind]
    rw [show (i : Int) + 1 = ((i + 1 : Nat) : Int) by simp, hrest, ok_bind, hblock,
      show sectorSize * (n + 1) = sectorSize + sectorSize * n by simp only [sectorSize]; omega,
      bytesAt_append,
      show sectorSize * i + sectorSize = sectorSize * (i + 1) by simp only [sectorSize]; omega]

/-- What the loop of `WriteAt` does: the blocks `i .. i + n - 1` of the file are
those of the buffer, every other block and every other sector is as before. -/
theorem writeSectors (hs : h.Sound) (buf : Nat → UInt8) {i n : Nat} (pos : Nat)
    (hn : i + n ≤ h.blocks) :
    ∃ d', h.writeSectors d buf pos i n = .ok d' ∧
      (∀ b, b < h.blocks → d' (h.sector b).toNat =
        if i ≤ b ∧ b < i + n then .ofMem buf (pos + sectorSize * (b - i))
        else d (h.sector b).toNat) ∧
      ∀ s, h.Outside s → d' s = d s := by
  induction n generalizing i pos d with
  | zero =>
    refine ⟨d, rfl, fun b _ => ?_, fun _ _ => rfl⟩
    rw [if_neg (by omega)]
  | succ n ih =>
    have hi : i < h.blocks := by omega
    have hfits := hs.fits
    obtain ⟨d', hd', hblocks, hout⟩ :=
      ih (d := Function.update d (h.sector i).toNat (.ofMem buf pos)) (i := i + 1)
        (pos + sectorSize) (by omega)
    refine ⟨d', ?_, fun b hb => ?_, fun s hs' => ?_⟩
    · rw [FileHeader.writeSectors, byteToSector_block (by omega), ok_bind, hs.write hi, ok_bind,
        show (i : Int) + 1 = ((i + 1 : Nat) : Int) by simp, hd']
    · rw [hblocks b hb]
      by_cases hbi : b = i
      · subst hbi
        rw [if_neg (by omega), if_pos (by omega), Function.update_self, Nat.sub_self]
        rfl
      · rw [Function.update_of_ne (hs.sector_ne hb hi hbi)]
        by_cases hlater : i + 1 ≤ b ∧ b < i + 1 + n
        · obtain ⟨k, rfl⟩ := Nat.exists_eq_add_of_le hlater.1
          rw [if_pos hlater, if_pos (by omega), show i + 1 + k - (i + 1) = k by omega,
            show i + 1 + k - i = k + 1 by omega, Nat.mul_succ, Nat.add_assoc,
            Nat.add_comm sectorSize]
        · rw [if_neg hlater, if_neg (by omega)]
    · rw [hout s hs', Function.update_of_ne (hs' i hi)]

end Sound
end FileHeader

/-! ## Requests -/

namespace OpenFile
open FileHeader

variable {f : OpenFile} {d : Sectors}

theorem isInt_fileLength (h : FileHeader) : IsInt h.fileLength := isInt_toInt h.numBytes

theorem cut_length (h : FileHeader) {n p : Int} (hp : 0 ≤ p) :
    cut h.length n p = cut h.fileLength n p := by
  unfold cut FileHeader.length
  omega

theorem clamp_eq {n p : Int} (hp : 0 ≤ p) (hn : IsInt (p + n)) :
    f.clamp n p = .ok (if cut f.hdr.length n p = 0 then none else some (cut f.hdr.length n p)) := by
  rw [cut_length _ hp]
  have hl := isInt_fileLength f.hdr
  unfold clamp cut
  by_cases hnone : n ≤ 0 ∨ f.hdr.fileLength ≤ p
  · rw [if_pos hnone, if_pos (by omega)]
  · have hsome : max 0 (min n (f.hdr.fileLength - p)) ≠ 0 := by omega
    rw [if_neg hnone, cInt_of_isInt hn, ok_bind, if_neg hsome]
    by_cases hend : f.hdr.fileLength < p + n
    · have hrest : IsInt (f.hdr.fileLength - p) := by
        unfold IsInt at *
        omega
      rw [if_pos hend, cInt_of_isInt hrest, ok_bind,
        show max 0 (min n (f.hdr.fileLength - p)) = f.hdr.fileLength - p by omega]
    · rw [if_neg hend, show max 0 (min n (f.hdr.fileLength - p)) = n by omega]

/-! The sectors of a request for `c` bytes at `q`, as the code counts them in `int`s. -/

section Span

variable {q c : Nat}

theorem tdiv_last (hc : 0 < c) :
    ((q : Int) + c - 1).tdiv sectorSize = ((q + c - 1) / sectorSize : Nat) := by
  rw [show (q : Int) + c - 1 = ((q + c - 1 : Nat) : Int) by omega, tdiv_sectorSize]

theorem first_le_last (hc : 0 < c) : q / sectorSize ≤ (q + c - 1) / sectorSize :=
  Nat.div_le_div_right (by omega)

theorem toNat_numSectors {first last : Nat} :
    (1 + (last : Int) - (first : Int)).toNat = last + 1 - first := by
  omega

theorem toNat_offset : ((q : Int) - (q / sectorSize : Nat) * sectorSize).toNat =
    q - sectorSize * (q / sectorSize) := by
  simp only [sectorSize]
  omega

end Span

/-- `ReadAt` of a block that lies inside the file. -/
theorem readAt_inside (hs : f.hdr.Sound) {n p : Int} {q c : Nat} (hc : 0 < c)
    (hq : p = q) (hqc : q + c ≤ f.hdr.length) (hclamp : f.clamp n p = .ok (some (c : Int))) :
    f.readAt d n p = .ok (bytesAt (f.hdr.byte d) q c) := by
  subst hq
  have hlast := div_lt_blocks f.hdr (show q + c - 1 < f.hdr.length by omega)
  have hfirst := first_le_last (q := q) hc
  rw [readAt, hclamp, ok_bind]
  simp only [tdiv_last hc, tdiv_sectorSize, toNat_numSectors]
  rw [hs.readSectors (by omega), ok_bind, if_pos (by simp only [sectorSize] at *; omega),
    toNat_offset, Int.toNat_natCast, drop_take_bytesAt _ (by simp only [sectorSize] at *; omega),
    Nat.add_sub_cancel' (Nat.mul_div_le q sectorSize)]

theorem readAt_eq (hs : f.hdr.Sound) {n p : Int} (hp : 0 ≤ p) (hn : IsInt (p + n)) :
    f.readAt d n p = .ok (bytesAt (f.hdr.byte d) p.toNat (cut f.hdr.length n p).toNat) := by
  have hclamp := clamp_eq (f := f) hp hn
  by_cases hcut : cut f.hdr.length n p = 0
  · rw [if_pos hcut] at hclamp
    rw [readAt, hclamp, ok_bind, hcut]
    rfl
  · rw [if_neg hcut] at hclamp
    have hpos : 0 < (cut f.hdr.length n p).toNat := by
      unfold cut at *
      omega
    refine readAt_inside hs hpos (by omega) ?_ ?_
    · unfold cut at *
      omega
    · rw [hclamp, Int.toNat_of_nonneg (by omega)]

/-- `ReadAt` of block `b`, as `WriteAt` makes it. -/
theorem readAt_block (hs : f.hdr.Sound) {b : Nat} (hb : b < f.hdr.blocks) :
    f.readAt d sectorSize ((b : Int) * sectorSize) =
      .ok (bytesAt (f.hdr.byte d) (sectorSize * b) (min sectorSize (f.hdr.length - sectorSize * b)))
    := by
  have hfits := hs.fits
  rw [readAt_eq hs (by simp only [sectorSize]; omega)
    (by simp only [IsInt, sectorSize, numDirect] at *; omega)]
  congr 2
  · simp only [sectorSize]
    omega
  · simp only [cut, sectorSize]
    omega

/-- After the partial sectors have been read in, the buffer holds every byte of
the file that its sectors have and the request leaves alone. -/
theorem readPartial_eq (hs : f.hdr.Sound) (fresh : Nat → UInt8) {q c : Nat} (hc : 0 < c)
    (hqc : q + c ≤ f.hdr.length) :
    let first := q / sectorSize
    let last := (q + c - 1) / sectorSize
    ∃ buf, f.readPartial d first last ((q : Int) = first * sectorSize)
        ((q : Int) + c = (last + 1) * sectorSize) fresh = .ok buf ∧
      ∀ j, sectorSize * first + j < f.hdr.length →
        sectorSize * first + j < sectorSize * (last + 1) →
        ¬ (q ≤ sectorSize * first + j ∧ sectorSize * first + j < q + c) →
        buf j = f.hdr.byte d (sectorSize * first + j) := by
  intro first last
  have hlast : last < f.hdr.blocks := div_lt_blocks f.hdr (by omega)
  have hfl : first ≤ last := first_le_last hc
  have hq : sectorSize * first ≤ q ∧ q < sectorSize * first + sectorSize := by
    simp only [first, sectorSize]
    omega
  have hend : sectorSize * last < q + c ∧ q + c ≤ sectorSize * last + sectorSize := by
    simp only [last, sectorSize]
    omega
  clear_value first last
  have hstart : (((last : Int) - first) * sectorSize).toNat = sectorSize * (last - first) := by
    simp only [sectorSize]
    omega
  unfold readPartial
  rw [readAt_block hs (b := first) (by omega), readAt_block hs hlast]
  simp only [decide_eq_true_eq, ok_bind, hstart]
  by_cases hfa : (q : Int) = first * sectorSize
  · simp only [hfa, if_true, or_true, and_true]
    by_cases hla : (first : Int) * sectorSize + c = (last + 1) * sectorSize
    · simp only [hla, not_true, if_false]
      refine ⟨fresh, rfl, fun j _ _ hout => ?_⟩
      simp only [sectorSize] at *
      omega
    · simp only [hla, not_false_eq_true, if_true]
      refine ⟨_, rfl, fun j hj hj' hout => ?_⟩
      rw [overlay_bytesAt, if_pos (by simp only [sectorSize] at *; omega)]
      congr 1
      simp only [sectorSize] at *
      omega
  · simp only [hfa, if_false, or_false]
    by_cases hla : ¬ (q : Int) + c = (last + 1) * sectorSize ∧ (first : Int) ≠ last
    · rw [if_pos hla]
      refine ⟨_, rfl, fun j hj hj' hout => ?_⟩
      rw [overlay_bytesAt, overlay_bytesAt]
      -- in front of the request lies the first sector, behind it the last one
      by_cases hfront : sectorSize * first + j < q
      · rw [if_neg (by simp only [sectorSize] at *; omega),
          if_pos (by simp only [sectorSize] at *; omega), Nat.sub_zero]
      · rw [if_pos (by simp only [sectorSize] at *; omega)]
        congr 1
        simp only [sectorSize] at *
        omega
    · rw [if_neg hla]
      refine ⟨_, rfl, fun j hj hj' hout => ?_⟩
      rw [overlay_bytesAt, if_pos (by simp only [sectorSize] at *; omega), Nat.sub_zero]

/-- `WriteAt` of a block that lies inside the file. -/
theorem writeAt_inside (hs : f.hdr.Sound) (src fresh : Nat → UInt8) {n : Int} {q c : Nat}
    (hc : 0 < c) (hqc : q + c ≤ f.hdr.length) (hclamp : f.clamp n q = .ok (some (c : Int))) :
    ∃ d', f.writeAt d src n q fresh = .ok ((c : Int), d') ∧
      (∀ j, j < f.hdr.length →
        f.hdr.byte d' j = if q ≤ j ∧ j < q + c then src (j - q) else f.hdr.byte d j) ∧
      ∀ s, f.hdr.Outside s → d' s = d s := by
  obtain ⟨buf, hbuf, hold⟩ := readPartial_eq (d := d) hs fresh hc hqc
  have hlast := div_lt_blocks f.hdr (show q + c - 1 < f.hdr.length by omega)
  have hfirst := first_le_last (q := q) hc
  have hq : sectorSize * (q / sectorSize) ≤ q := Nat.mul_div_le q sectorSize
  obtain ⟨d', hd', hblocks, hout⟩ := hs.writeSectors (d := d)
    (overlay buf (q - sectorSize * (q / sectorSize)) (bytesAt src 0 c)) (i := q / sectorSize)
    (n := (q + c - 1) / sectorSize + 1 - q / sectorSize) 0 (by omega)
  refine ⟨d', ?_, fun j hj => ?_, hout⟩
  · rw [writeAt, hclamp, ok_bind]
    simp only [tdiv_last hc, tdiv_sectorSize, toNat_numSectors]
    rw [hbuf, ok_bind, if_pos (by simp only [sectorSize] at *; omega), toNat_offset,
      Int.toNat_natCast, hd', ok_bind]
  · have hend : q + c ≤ sectorSize * ((q + c - 1) / sectorSize + 1) := by
      simp only [sectorSize]
      omega
    have hb := div_lt_blocks f.hdr hj
    have hj' : j = sectorSize * (j / sectorSize) + j % sectorSize := (Nat.div_add_mod j _).symm
    have hmod : j % sectorSize < sectorSize := Nat.mod_lt j (by decide)
    rw [hj', byte_block _ hmod, byte_block _ hmod, ← hj', hblocks _ hb]
    generalize q / sectorSize = first at *
    generalize (q + c - 1) / sectorSize = last at *
    generalize j / sectorSize = b at *
    generalize j % sectorSize = k at *
    by_cases hin : first ≤ b ∧ b < first + (last + 1 - first)
    · rw [if_pos hin, mem_ofMem _ _ hmod, overlay_bytesAt]
      have hpos : sectorSize * first + (0 + sectorSize * (b - first) + k) = j := by
        simp only [sectorSize] at *
        omega
      by_cases hreq : q ≤ j ∧ j < q + c
      · rw [if_pos (by omega), if_pos hreq]
        congr 1
        omega
      · have hend' : j < sectorSize * (last + 1) := by
          simp only [sectorSize] at *
          omega
        rw [if_neg (by omega), if_neg hreq, hold _ (by omega) (by omega) (by omega), hpos, hj',
          byte_block _ hmod]
    · rw [if_neg hin, if_neg (by simp only [sectorSize] at *; omega)]

theorem writeAt_eq (hs : f.hdr.Sound) (src fresh : Nat → UInt8) {n p : Int} (hp : 0 ≤ p)
    (hn : IsInt (p + n)) :
    ∃ d', f.writeAt d src n p fresh = .ok (cut f.hdr.length n p, d') ∧
      f.hdr.contents d' =
        patch (f.hdr.contents d) p.toNat (bytesAt src 0 (cut f.hdr.length n p).toNat) ∧
      ∀ s, f.hdr.Outside s → d' s = d s := by
  have hclamp := clamp_eq (f := f) hp hn
  by_cases hcut : cut f.hdr.length n p = 0
  · rw [if_pos hcut] at hclamp
    refine ⟨d, ?_, ?_, fun _ _ => rfl⟩
    · rw [writeAt, hclamp, ok_bind, hcut]
    · rw [hcut]
      exact (patch_nil _ _).symm
  · rw [if_neg hcut] at hclamp
    obtain ⟨q, rfl⟩ := Int.eq_ofNat_of_zero_le hp
    obtain ⟨c, hc⟩ := Int.eq_ofNat_of_zero_le (show 0 ≤ cut f.hdr.length n q by unfold cut; omega)
    have hqc : q + c ≤ f.hdr.length := by
      unfold cut at hc hcut
      omega
    rw [hc] at hclamp hcut ⊢
    obtain ⟨d', hd', hbytes, hout⟩ := writeAt_inside (d := d) hs src fresh (by omega) hqc hclamp
    exact ⟨d', hd', bytesAt_patch hqc hbytes, hout⟩

/-! A request that starts in front of the file. -/

section Negative
variable {n p k : Int}

/-- It is not turned away. -/
theorem clamp_of_neg {c : Option Int} (hn : 0 < n) (hlen : p < f.hdr.fileLength)
    (h : f.clamp n p = .ok c) : ∃ k, c = some k ∧ 0 < k := by
  unfold clamp at h
  rw [if_neg (by omega)] at h
  obtain ⟨stop, -, h⟩ := bind_eq_ok.mp h
  split at h
  · obtain ⟨rest, hrest, h⟩ := bind_eq_ok.mp h
    obtain ⟨-, rfl⟩ := cInt_eq_ok.mp hrest
    cases h
    exact ⟨_, rfl, by omega⟩
  · cases h
    exact ⟨_, rfl, hn⟩

/-- The division rounds towards zero: either the sector index is negative, or the
buffer is entered in front of its first byte. -/
theorem first_or_offset_neg (hp : p < 0) :
    p.tdiv sectorSize < 0 ∨ p - p.tdiv sectorSize * sectorSize < 0 := by
  obtain ⟨q, rfl⟩ : ∃ q : Nat, p = -(q : Int) := ⟨p.natAbs, by omega⟩
  have hfirst : (-(q : Int)).tdiv sectorSize = -((q / sectorSize : Nat) : Int) := Int.neg_tdiv q _
  rw [hfirst]
  simp only [sectorSize]
  omega

theorem byteToSector_neg {h : FileHeader} {i : Int} (hi : i < 0) :
    h.byteToSector (i * sectorSize) = .error .undefined := by
  have hidx : (i * sectorSize).tdiv sectorSize = i := Int.mul_tdiv_cancel _ (by decide)
  unfold byteToSector
  simp only [hidx]
  rw [if_neg (by omega)]

/-- The loops go through one sector at least. -/
theorem numSectors_succ (hk : 0 < k) :
    ∃ l : Nat, (1 + (p + k - 1).tdiv sectorSize - p.tdiv sectorSize).toNat = l + 1 := by
  have hlast : p.tdiv sectorSize ≤ (p + k - 1).tdiv sectorSize :=
    Int.tdiv_le_tdiv (by decide) (by omega)
  exact ⟨_, (Nat.succ_pred_eq_of_pos (by omega)).symm⟩

theorem readAt_of_neg (hp : p < 0) (hn : 0 < n) (hlen : p < f.hdr.fileLength) (bs : List UInt8) :
    f.readAt d n p ≠ .ok bs := by
  intro h
  obtain ⟨c, hclamp, h⟩ := bind_eq_ok.mp h
  obtain ⟨k, rfl, hk⟩ := clamp_of_neg hn hlen hclamp
  obtain ⟨buf, hbuf, h⟩ := bind_eq_ok.mp h
  obtain ⟨⟨hoff, -⟩, -⟩ := ite_error_eq_ok.mp h
  obtain ⟨l, hl⟩ := numSectors_succ (p := p) hk
  rw [hl, FileHeader.readSectors,
    byteToSector_neg ((first_or_offset_neg hp).resolve_right (Int.not_lt.mpr hoff))] at hbuf
  cases hbuf

theorem writeAt_of_neg (src fresh : Nat → UInt8) (hp : p < 0) (hn : 0 < n)
    (hlen : p < f.hdr.fileLength) (r : Int × Sectors) : f.writeAt d src n p fresh ≠ .ok r := by
  intro h
  obtain ⟨c, hclamp, h⟩ := bind_eq_ok.mp h
  obtain ⟨k, rfl, hk⟩ := clamp_of_neg hn hlen hclamp
  obtain ⟨buf, -, h⟩ := bind_eq_ok.mp h
  obtain ⟨⟨hoff, -⟩, h⟩ := ite_error_eq_ok.mp h
  obtain ⟨d', hd', -⟩ := bind_eq_ok.mp h
  obtain ⟨l, hl⟩ := numSectors_succ (p := p) hk
  rw [hl, FileHeader.writeSectors,
    byteToSector_neg ((first_or_offset_neg hp).resolve_right (Int.not_lt.mpr hoff))] at hd'
  cases hd'

/-- A request that is not turned away computes its end, which has to be an `int`. -/
theorem isInt_of_clamp {c : Option Int} (hnone : ¬ (n ≤ 0 ∨ f.hdr.fileLength ≤ p))
    (h : f.clamp n p = .ok c) : IsInt (p + n) := by
  unfold clamp at h
  rw [if_neg hnone] at h
  obtain ⟨stop, hstop, -⟩ := bind_eq_ok.mp h
  exact (cInt_eq_ok.mp hstop).1

end Negative

/-- Whatever a `WriteAt` that returns has written lies in the file's sectors. -/
theorem writeAt_outside (hs : f.hdr.Sound) {src fresh : Nat → UInt8} {n p r : Int} {d' : Sectors}
    (h : f.writeAt d src n p fresh = .ok (r, d')) {s : Nat} (ho : f.hdr.Outside s) :
    d' s = d s := by
  by_cases hnone : n ≤ 0 ∨ f.hdr.fileLength ≤ p
  · have hclamp : f.clamp n p = .ok none := if_pos hnone
    rw [writeAt, hclamp, ok_bind] at h
    cases h
    rfl
  · have hp : 0 ≤ p := Int.not_lt.mp fun hneg =>
      writeAt_of_neg src fresh hneg (by omega) (by omega) _ h
    obtain ⟨c, hclamp, -⟩ := bind_eq_ok.mp h
    have hn : IsInt (p + n) := isInt_of_clamp hnone hclamp
    obtain ⟨d'', hd'', -, hout⟩ := writeAt_eq (d := d) hs src fresh hp hn
    rw [hd''] at h
    cases h
    exact hout s ho

/-- A request for the first `n` bytes of a file that has them is in range, and is
not cut. -/
theorem front_request (h : FileHeader) {n : Nat} (hn : n ≤ h.length) :
    IsInt (0 + (n : Int)) ∧ cut h.length n 0 = n := by
  have hl := isInt_fileLength h
  unfold IsInt cut FileHeader.length at *
  omega

theorem readAt_front (hs : f.hdr.Sound) {n : Nat} (hn : n ≤ f.hdr.length) :
    f.readAt d n 0 = .ok (bytesAt (f.hdr.byte d) 0 n) := by
  obtain ⟨hint, hcut⟩ := front_request f.hdr hn
  rw [readAt_eq hs (Int.le_refl 0) hint, hcut, Int.toNat_zero, Int.toNat_natCast]

theorem writeAt_front (hs : f.hdr.Sound) (src fresh : Nat → UInt8) {n : Nat}
    (hn : n ≤ f.hdr.length) :
    ∃ d', f.writeAt d src n 0 fresh = .ok ((n : Int), d') ∧
      (∀ j, j < n → f.hdr.byte d' j = src j) ∧ ∀ s, f.hdr.Outside s → d' s = d s := by
  obtain ⟨hint, hcut⟩ := front_request f.hdr hn
  have hclamp := clamp_eq (f := f) (Int.le_refl 0) hint
  rw [hcut] at hclamp
  by_cases h0 : n = 0
  · subst h0
    rw [writeAt, hclamp, ok_bind]
    exact ⟨d, rfl, by omega, fun _ _ => rfl⟩
  · rw [if_neg (by omega)] at hclamp
    obtain ⟨d', hd', hbytes, hout⟩ :=
      writeAt_inside (d := d) (q := 0) hs src fresh (by omega) (by omega) hclamp
    refine ⟨d', hd', fun j hj => ?_, hout⟩
    rw [hbytes j (by omega), if_pos (by omega), Nat.sub_zero]

end OpenFile

namespace Request
open FileHeader

variable {h : FileHeader} {d : Sectors}

/-- One request: the code answers as the byte array does. -/
theorem serve_eq (hs : h.Sound) {r : Request} (hon : r.On h) (hr : r.InRange) :
    ∃ d', r.serve d = .ok ((r.answer (h.contents d)).1, d') ∧
      h.contents d' = (r.answer (h.contents d)).2 ∧ ∀ s, h.Outside s → d' s = d s := by
  have hlen : (h.contents d).length = h.length := bytesAt_length _ _ _
  cases r with
  | readAt f n p =>
    obtain rfl : f.hdr = h := hon
    refine ⟨d, ?_, rfl, fun _ _ => rfl⟩
    rw [serve, OpenFile.readAt_eq hs hr.1 hr.2, ok_bind, answer, hlen]
    congr 3
    unfold readBytes contents
    by_cases hin : cut f.hdr.length n p = 0
    · rw [hin]
      rfl
    · have hp : 0 ≤ p := hr.1
      rw [drop_take_bytesAt _ (by unfold cut at *; omega), Nat.zero_add]
  | writeAt f src n p fresh =>
    obtain rfl : f.hdr = h := hon
    obtain ⟨d', hd', hcont, hout⟩ := OpenFile.writeAt_eq (d := d) hs src fresh hr.1 hr.2
    refine ⟨d', ?_, ?_, hout⟩
    · rw [serve, hd', ok_bind, answer, hlen]
    · rw [answer, hlen, hcont]

/-- An open file behaves as a byte array of fixed length: whatever requests are
made through whatever handles on it, they all return, with the answers the byte
array gives, and leave its bytes in the data sectors; no other sector changes. -/
theorem open_file_is_byte_array (hs : h.Sound) (rs : List Request) (d : Sectors)
    (hrs : ∀ r ∈ rs, r.On h ∧ r.InRange) :
    ∃ d', serves rs d = .ok ((answers rs (h.contents d)).1, d') ∧
      h.contents d' = (answers rs (h.contents d)).2 ∧ ∀ s, h.Outside s → d' s = d s := by
  induction rs generalizing d with
  | nil => exact ⟨d, rfl, rfl, fun _ _ => rfl⟩
  | cons r rs ih =>
    obtain ⟨hon, hr⟩ := hrs r (List.mem_cons_self ..)
    obtain ⟨d₁, hserve, hcont, hout⟩ := serve_eq (d := d) hs hon hr
    obtain ⟨d₂, hserves, hcont₂, hout₂⟩ := ih d₁ fun r' hr' => hrs r' (List.mem_cons_of_mem _ hr')
    rw [hcont] at hserves hcont₂
    refine ⟨d₂, ?_, hcont₂, fun s hs' => (hout₂ s hs').trans (hout s hs')⟩
    rw [serves, hserve, ok_bind]
    simp only [hserves, ok_bind]
    rfl

/-- A file of 300 bytes in the sectors 7 and 5. -/
def twoBlocks : FileHeader := ⟨300, 2, fun i => if i = 0 then 7 else 5⟩

theorem twoBlocks_sound : twoBlocks.Sound := by
  refine ⟨by decide, ?_, ?_⟩
  · decide
  · have h : ∀ i, i < twoBlocks.blocks → ∀ j, j < twoBlocks.blocks →
        twoBlocks.sector i = twoBlocks.sector j → i = j := by decide
    exact fun i j hi hj => h i hi j hj

/-- A write over the boundary of the two sectors that reaches beyond the end of
the file, and reads of it through another handle. -/
def acrossBlocks : List Request :=
  [.writeAt ⟨twoBlocks, 0⟩ (fun _ => 9) 100 254 (fun _ => 3), .readAt ⟨twoBlocks, 8⟩ 4 252,
    .readAt ⟨twoBlocks, 8⟩ 9 298, .readAt ⟨twoBlocks, 8⟩ (-1) 300]

theorem open_file_is_byte_array_two :
    ∃ d', serves acrossBlocks (fun _ _ => 0) =
        .ok ([.count 46, .bytes [0, 0, 9, 9], .bytes [9, 9], .bytes []], d') ∧
      ∀ s, twoBlocks.Outside s → d' s = fun _ => 0 := by
  have hrs : ∀ r ∈ acrossBlocks, r.On twoBlocks ∧ r.InRange := by
    simp [acrossBlocks, On, InRange, IsInt]
  obtain ⟨d', hd', -, hout⟩ :=
    open_file_is_byte_array twoBlocks_sound acrossBlocks (fun _ _ => 0) hrs
  have hreplies : (answers acrossBlocks (twoBlocks.contents fun _ _ => 0)).1 =
      [.count 46, .bytes [0, 0, 9, 9], .bytes [9, 9], .bytes []] := by decide +kernel
  rw [hreplies] at hd'
  exact ⟨d', hd', hout⟩

end Request
end Nachos

import Nachos.Filesys.Allocate

/-! What `ReadAt` and `WriteAt` index. They turn a request away that asks for
nothing or starts at or behind the end of the file, and cut one that reaches over
the end; a position in front of the file is neither, and the sum that the cut
compares with the length is computed in an `int`. -/

namespace Nachos
open Lib

namespace OpenFile

/-- All that `ReadAt` computes and indexes for a request is in bounds. -/
structure InBounds (f : OpenFile) (numBytes position : Int) : Prop where
  /-- The sum does not wrap where it is computed. -/
  sum : 0 < numBytes → position < f.hdr.fileLength → IsInt (position + numBytes)
  /-- Every sector of the loop is one of the header's. -/
  sectors : ∀ k, f.clamp numBytes position = .ok (some k) →
    ∀ i, position.tdiv sectorSize ≤ i → i ≤ (position + k - 1).tdiv sectorSize →
      0 ≤ i ∧ i < f.hdr.numSectors.toInt
  /-- Every byte that is copied is one of the buffer's. -/
  buffer : ∀ k, f.clamp numBytes position = .ok (some k) → ∀ j, 0 ≤ j → j < k →
    0 ≤ position - position.tdiv sectorSize * sectorSize + j ∧
      position - position.tdiv sectorSize * sectorSize + j <
        (1 + (position + k - 1).tdiv sectorSize - position.tdiv sectorSize) * sectorSize

/-- The same of `WriteAt`, which reads its first and its last sector by `ReadAt`
if it changes them in part only. -/
structure WritesInBounds (f : OpenFile) (numBytes position : Int) : Prop
    extends f.InBounds numBytes position where
  first : ∀ k, f.clamp numBytes position = .ok (some k) →
    position ≠ position.tdiv sectorSize * sectorSize →
    f.InBounds sectorSize (position.tdiv sectorSize * sectorSize)
  last : ∀ k, f.clamp numBytes position = .ok (some k) →
    position + k ≠ ((position + k - 1).tdiv sectorSize + 1) * sectorSize →
    f.InBounds sectorSize ((position + k - 1).tdiv sectorSize * sectorSize)

/-- The request is turned away, or it starts in the file and its end is an `int`. -/
def Sane (f : OpenFile) (numBytes position : Int) : Prop :=
  numBytes ≤ 0 ∨ f.hdr.fileLength ≤ position ∨ 0 ≤ position ∧ position + numBytes < 2147483648

variable {f : OpenFile} {n p : Int}

theorem Sane.cases (h : f.Sane n p) (hn : IsInt n) :
    (n ≤ 0 ∨ f.hdr.fileLength ≤ p) ∨ 0 ≤ p ∧ IsInt (p + n) := by
  unfold Sane IsInt at *
  omega

theorem not_sane (h : ¬ f.Sane n p) :
    0 < n ∧ p < f.hdr.fileLength ∧ (p < 0 ∨ 2147483648 ≤ p + n) := by
  unfold Sane at h
  omega

/-- What is left of a request after it has been cut lies in the file. -/
theorem clamp_inside {k : Int} (hp : 0 ≤ p) (hn : IsInt (p + n))
    (h : f.clamp n p = .ok (some k)) :
    ∃ q c : Nat, p = q ∧ k = c ∧ 0 < c ∧ q + c ≤ f.hdr.length := by
  rw [clamp_eq hp hn] at h
  split at h
  · cases h
  · rename_i hcut
    obtain rfl : cut f.hdr.length n p = k := Option.some.inj (Except.ok.inj h)
    unfold cut at *
    exact ⟨p.toNat, (max 0 (min n (f.hdr.length - p))).toNat, by omega, by omega, by omega,
      by omega⟩

theorem inBounds_of_sane (hl : f.hdr.Listed) (hn : IsInt n) (h : f.Sane n p) :
    f.InBounds n p := by
  rcases h.cases hn with hnone | ⟨hp, hint⟩
  · have hclamp : f.clamp n p = .ok none := if_pos hnone
    refine ⟨fun _ _ => by omega, fun k hk => ?_, fun k hk => ?_⟩ <;>
    · rw [hclamp] at hk
      cases hk
  · refine ⟨fun _ _ => hint, fun k hk i hfirst hlast => ?_, fun k hk j h0 hj => ?_⟩
    · obtain ⟨q, c, rfl, rfl, hc, hqc⟩ := clamp_inside hp hint hk
      have hblock := f.hdr.div_lt_blocks (show q + c - 1 < f.hdr.length by omega)
      rw [tdiv_last hc] at hlast
      rw [FileHeader.tdiv_sectorSize] at hfirst
      rw [← hl.count] at hblock
      simp only [sectorSize] at *
      omega
    · obtain ⟨q, c, rfl, rfl, hc, -⟩ := clamp_inside hp hint hk
      rw [tdiv_last hc, FileHeader.tdiv_sectorSize]
      simp only [sectorSize]
      omega

/-- The sector of a byte of the file, as `WriteAt` reads it. -/
theorem sane_block (hl : f.hdr.Listed) {b : Nat} (hb : b < f.hdr.blocks) :
    f.Sane sectorSize ((b : Int) * sectorSize) := by
  have hfits := hl.fits
  unfold Sane
  simp only [sectorSize, numDirect] at *
  omega

theorem writesInBounds_of_sane (hl : f.hdr.Listed) (hn : IsInt n) (h : f.Sane n p) :
    f.WritesInBounds n p := by
  have hblock : ∀ b : Nat, b < f.hdr.blocks → f.InBounds sectorSize ((b : Int) * sectorSize) :=
    fun b hb => inBounds_of_sane hl (by decide) (sane_block hl hb)
  refine ⟨inBounds_of_sane hl hn h, fun k hk _ => ?_, fun k hk _ => ?_⟩ <;>
  rcases h.cases hn with hnone | ⟨hp, hint⟩
  · have hclamp : f.clamp n p = .ok none := if_pos hnone
    rw [hclamp] at hk
    cases hk
  · obtain ⟨q, c, rfl, -, hc, hqc⟩ := clamp_inside hp hint hk
    exact hblock _ (f.hdr.div_lt_blocks (by omega))
  · have hclamp : f.clamp n p = .ok none := if_pos hnone
    rw [hclamp] at hk
    cases hk
  · obtain ⟨q, c, rfl, rfl, hc, hqc⟩ := clamp_inside hp hint hk
    rw [tdiv_last hc]
    exact hblock _ (f.hdr.div_lt_blocks (by omega))

theorem clamp_returns (hp : p < 0) (hn : IsInt n) (hpi : IsInt p) (h0 : 0 < n) :
    ∃ c, f.clamp n p = .ok c := by
  have hl := isInt_fileLength f.hdr
  unfold clamp
  split
  · exact ⟨none, rfl⟩
  · rw [cInt_of_isInt (by unfold IsInt at *; omega), ok_bind]
    split
    · rw [cInt_of_isInt (by unfold IsInt at *; omega), ok_bind]
      exact ⟨_, rfl⟩
    · exact ⟨_, rfl⟩

theorem InBounds.sane (h : f.InBounds n p) (hn : IsInt n) (hp : IsInt p) : f.Sane n p := by
  by_contra hsane
  obtain ⟨h0, hlen, hout⟩ := not_sane hsane
  have hsum := h.sum h0 hlen
  have hneg : p < 0 := by
    unfold IsInt at hsum
    omega
  obtain ⟨c, hclamp⟩ := clamp_returns (f := f) hneg hn hp h0
  obtain ⟨k, rfl, hk⟩ := clamp_of_neg h0 hlen hclamp
  rcases first_or_offset_neg hneg with hfirst | hoff
  · have hlast : p.tdiv sectorSize ≤ (p + k - 1).tdiv sectorSize :=
      Int.tdiv_le_tdiv (by decide) (by omega)
    have := (h.sectors k hclamp _ (Int.le_refl _) hlast).1
    omega
  · have := (h.buffer k hclamp 0 (Int.le_refl 0) hk).1
    omega

theorem sane_of_clamp {c : Option Int} (hpos : 0 < n → p < f.hdr.fileLength → 0 ≤ p)
    (hclamp : f.clamp n p = .ok c) : f.Sane n p := by
  by_contra hsane
  obtain ⟨h0, hlen, hout⟩ := not_sane hsane
  have hsum := isInt_of_clamp (by omega) hclamp
  have hstart := hpos h0 hlen
  unfold IsInt at hsum
  omega

theorem readAt_returns_iff (hs : f.hdr.Sound) (hn : IsInt n) (d : Sectors) :
    (∃ bs, f.readAt d n p = .ok bs) ↔ f.Sane n p := by
  constructor
  · intro ⟨bs, h⟩
    obtain ⟨c, hclamp, -⟩ := bind_eq_ok.mp h
    exact sane_of_clamp (fun h0 hlen => Int.not_lt.mp fun hneg =>
      readAt_of_neg hneg h0 hlen bs h) hclamp
  · intro h
    rcases h.cases hn with hnone | ⟨hp, hint⟩
    · have hclamp : f.clamp n p = .ok none := if_pos hnone
      rw [readAt, hclamp, ok_bind]
      exact ⟨_, rfl⟩
    · exact ⟨_, readAt_eq hs hp hint⟩

theorem writeAt_returns_iff (hs : f.hdr.Sound) (hn : IsInt n) (d : Sectors)
    (src fresh : Nat → UInt8) : (∃ r, f.writeAt d src n p fresh = .ok r) ↔ f.Sane n p := by
  constructor
  · intro ⟨r, h⟩
    obtain ⟨c, hclamp, -⟩ := bind_eq_ok.mp h
    exact sane_of_clamp (fun h0 hlen => Int.not_lt.mp fun hneg =>
      writeAt_of_neg src fresh hneg h0 hlen r h) hclamp
  · intro h
    rcases h.cases hn with hnone | ⟨hp, hint⟩
    · have hclamp : f.clamp n p = .ok none := if_pos hnone
      rw [writeAt, hclamp, ok_bind]
      exact ⟨_, rfl⟩
    · obtain ⟨d', hd', -⟩ := writeAt_eq (d := d) hs src fresh hp hint
      exact ⟨_, hd'⟩

/-- `ReadAt` and `WriteAt` stay in bounds for exactly the sane requests; for these
they return, and for no others. -/
theorem transfers_in_bounds_iff (hs : f.hdr.Sound) (hl : f.hdr.Listed) (hn : IsInt n)
    (hp : IsInt p) :
    (f.InBounds n p ↔ f.Sane n p) ∧ (f.WritesInBounds n p ↔ f.Sane n p) ∧
      ∀ d, ((∃ bs, f.readAt d n p = .ok bs) ↔ f.Sane n p) ∧
        ∀ src fresh, (∃ r, f.writeAt d src n p fresh = .ok r) ↔ f.Sane n p :=
  ⟨⟨fun h => h.sane hn hp, inBounds_of_sane hl hn⟩,
    ⟨fun h => h.toInBounds.sane hn hp, writesInBounds_of_sane hl hn⟩,
    fun d => ⟨readAt_returns_iff hs hn d, writeAt_returns_iff hs hn d⟩⟩

theorem twoBlocks_listed : Request.twoBlocks.Listed := ⟨by decide, by decide⟩

/-- The end of a request that is cut, in a file of two sectors. -/
theorem transfers_in_bounds_two :
    OpenFile.InBounds ⟨Request.twoBlocks, 0⟩ 2147483000 299 ∧
      ∃ bs, OpenFile.readAt ⟨Request.twoBlocks, 0⟩ (fun _ _ => 0) 2147483000 299 = .ok bs := by
  have h := transfers_in_bounds_iff (f := ⟨Request.twoBlocks, 0⟩) (n := 2147483000) (p := 299)
    Request.twoBlocks_sound twoBlocks_listed (by decide) (by decide)
  have hsane : OpenFile.Sane ⟨Request.twoBlocks, 0⟩ 2147483000 299 :=
    Or.inr (Or.inr (by decide))
  exact ⟨h.1.mpr hsane, (h.2.2 _).1.mpr hsane⟩

/-- The byte in front of the file is copied from in front of the buffer; and a
request for all that an `int` can count, from byte 1 on, has no end. -/
theorem transfers_out_of_bounds :
    Request.twoBlocks.Sound ∧ Request.twoBlocks.Listed ∧
      ¬ OpenFile.InBounds ⟨Request.twoBlocks, 0⟩ 1 (-1) ∧
      ¬ OpenFile.InBounds ⟨Request.twoBlocks, 0⟩ 2147483647 1 := by
  refine ⟨Request.twoBlocks_sound, twoBlocks_listed, fun h => ?_, fun h => ?_⟩
  · have hfront := (h.buffer 1 rfl 0 (by decide) (by decide)).1
    revert hfront
    decide
  · have hsum := h.sum (by decide) (by decide)
    revert hsum
    decide

end OpenFile
end Nachos

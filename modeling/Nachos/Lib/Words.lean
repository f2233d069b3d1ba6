import Mathlib.Data.List.Basic
import Nachos.Lib.Bytes

/-! Blocks of bytes copied between memories, and the little-endian words of a
structure laid out in one. A structure of ints is the list of its words; writing
it into a memory and reading word for word gives it back. -/

namespace Nachos.Lib

/-- The `n` bytes of `m` from `pos` on. -/
def bytesAt (m : Nat → UInt8) (pos n : Nat) : List UInt8 := (List.range n).map fun i => m (pos + i)

@[simp] theorem bytesAt_length (m : Nat → UInt8) (pos n : Nat) : (bytesAt m pos n).length = n := by
  simp [bytesAt]

theorem bytesAt_getElem? (m : Nat → UInt8) {pos n i : Nat} (h : i < n) :
    (bytesAt m pos n)[i]? = some (m (pos + i)) := by
  simp [bytesAt, h]

theorem bytesAt_congr {m m' : Nat → UInt8} {pos pos' n : Nat}
    (h : ∀ i, i < n → m (pos + i) = m' (pos' + i)) : bytesAt m pos n = bytesAt m' pos' n := by
  unfold bytesAt
  exact List.map_congr_left fun i hi => h i (List.mem_range.mp hi)

theorem bytesAt_append (m : Nat → UInt8) (pos a b : Nat) :
    bytesAt m pos (a + b) = bytesAt m pos a ++ bytesAt m (pos + a) b := by
  unfold bytesAt
  rw [List.range_add, List.map_append, List.map_map]
  congr 1
  exact List.map_congr_left fun i _ => by simp [Nat.add_assoc]

theorem drop_take_bytesAt (m : Nat → UInt8) {pos a b n : Nat} (h : a + b ≤ n) :
    ((bytesAt m pos n).drop a).take b = bytesAt m (pos + a) b := by
  obtain ⟨c, rfl⟩ := Nat.exists_eq_add_of_le h
  rw [bytesAt_append, bytesAt_append, List.append_assoc,
    List.drop_left' (bytesAt_length m pos a), List.take_left' (bytesAt_length m (pos + a) b)]

/-- `bcopy`. -/
theorem overlay_bytesAt (m src : Nat → UInt8) (pos p n i : Nat) :
    overlay m pos (bytesAt src p n) i =
      if pos ≤ i ∧ i < pos + n then src (p + (i - pos)) else m i := by
  unfold overlay
  by_cases hpos : pos ≤ i
  · by_cases hn : i < pos + n
    · rw [if_pos hpos, if_pos ⟨hpos, hn⟩, bytesAt_getElem? src (by omega), Option.getD_some]
    · rw [if_pos hpos, if_neg (by omega), List.getElem?_eq_none (by rw [bytesAt_length]; omega),
        Option.getD_none]
  · rw [if_neg hpos, if_neg (by omega)]

/-- `f` with the bytes from `pos` on replaced by `bs`. -/
def patch (f : List UInt8) (pos : Nat) (bs : List UInt8) : List UInt8 :=
  f.take pos ++ bs ++ f.drop (pos + bs.length)

theorem patch_nil (f : List UInt8) (pos : Nat) : patch f pos [] = f := by simp [patch]

/-- A memory that differs in one block, seen as a list of bytes. -/
theorem bytesAt_patch {m m' src : Nat → UInt8} {pos c n : Nat} (hn : pos + c ≤ n)
    (h : ∀ i, i < n → m' i = if pos ≤ i ∧ i < pos + c then src (i - pos) else m i) :
    bytesAt m' 0 n = patch (bytesAt m 0 n) pos (bytesAt src 0 c) := by
  obtain ⟨k, rfl⟩ := Nat.exists_eq_add_of_le hn
  have hp : (bytesAt m 0 pos).length = pos := bytesAt_length m 0 pos
  have hc : (bytesAt m 0 (pos + c)).length = pos + c := bytesAt_length m 0 (pos + c)
  have htake : (bytesAt m 0 (pos + c + k)).take pos = bytesAt m 0 pos := by
    rw [Nat.add_assoc, bytesAt_append, List.take_left' hp]
  have hdrop : (bytesAt m 0 (pos + c + k)).drop (pos + c) = bytesAt m (0 + (pos + c)) k := by
    rw [bytesAt_append, List.drop_left' hc]
  rw [patch, bytesAt_length, htake, hdrop, bytesAt_append m' 0 (pos + c), bytesAt_append m' 0 pos]
  congr 1
  · congr 1
    · refine bytesAt_congr fun i hi => ?_
      rw [h _ (by omega), if_neg (by omega)]
    · refine bytesAt_congr fun i hi => ?_
      rw [h _ (by omega), if_pos (by omega), show 0 + pos + i - pos = 0 + i by omega]
  · refine bytesAt_congr fun i hi => ?_
    rw [h _ (by omega), if_neg (by omega)]

/-- `m` has the bytes `bs` from `pos` on. -/
def HasBytes (m : Nat → UInt8) (pos : Nat) (bs : List UInt8) : Prop :=
  ∀ i, i < bs.length → some (m (pos + i)) = bs[i]?

section HasBytes
variable {m src : Nat → UInt8} {pos p n : Nat} {bs cs : List UInt8}

theorem hasBytes_overlay : HasBytes (overlay m pos bs) pos bs := by
  intro i hi
  unfold overlay
  rw [if_pos (by omega), show pos + i - pos = i by omega, List.getElem?_eq_getElem hi]
  rfl

theorem hasBytes_bytesAt : HasBytes m pos (bytesAt m pos n) := fun i hi => by
  rw [bytesAt_length] at hi
  exact (bytesAt_getElem? m hi).symm

theorem hasBytes_append :
    HasBytes m pos (bs ++ cs) ↔ HasBytes m pos bs ∧ HasBytes m (pos + bs.length) cs := by
  constructor
  · intro h
    refine ⟨fun i hi => ?_, fun i hi => ?_⟩
    · rw [h i (by rw [List.length_append]; omega), List.getElem?_append_left hi]
    · rw [Nat.add_assoc, h (bs.length + i) (by rw [List.length_append]; omega),
        List.getElem?_append_right (by omega), show bs.length + i - bs.length = i by omega]
  · intro ⟨hb, hc⟩ i hi
    rw [List.length_append] at hi
    by_cases hlt : i < bs.length
    · rw [hb i hlt, List.getElem?_append_left hlt]
    · have := hc (i - bs.length) (by omega)
      rw [show pos + bs.length + (i - bs.length) = pos + i by omega] at this
      rw [this, List.getElem?_append_right (by omega)]

theorem HasBytes.overlay_behind {q : Nat} (h : HasBytes m pos bs) (hq : pos + bs.length ≤ q) :
    HasBytes (overlay m q cs) pos bs := fun i hi => by
  rw [overlay_of_lt (by omega)]
  exact h i hi

/-- A copied block has the bytes of the original. -/
theorem HasBytes.copy {dst : Nat → UInt8} {q : Nat} (h : HasBytes src p bs) (hn : bs.length ≤ n) :
    HasBytes (overlay dst q (bytesAt src p n)) q bs := fun i hi => by
  rw [overlay_bytesAt, if_pos (by omega), show q + i - q = i by omega]
  exact h i hi

theorem HasBytes.bytesAt_eq (h : HasBytes m pos bs) : bytesAt m pos bs.length = bs := by
  apply List.ext_getElem?
  intro i
  by_cases hi : i < bs.length
  · rw [bytesAt_getElem? m hi]
    exact h i hi
  · rw [List.getElem?_eq_none (by rw [bytesAt_length]; omega), List.getElem?_eq_none (by omega)]

end HasBytes

/-! ## Words -/

theorem isInt_toInt (w : BitVec 32) : IsInt w.toInt := by
  have hlo := BitVec.le_toInt w
  have hhi := BitVec.toInt_lt (x := w)
  unfold IsInt
  omega

theorem toInt_ofInt {s : Int} (h : IsInt s) : (BitVec.ofInt 32 s).toInt = s := by
  rw [BitVec.toInt_ofInt]
  unfold IsInt at h
  exact Int.bmod_eq_of_le (by omega) (by omega)

def wordBytes (w : BitVec 32) : List UInt8 :=
  [.ofNat w.toNat, .ofNat (w.toNat / 256), .ofNat (w.toNat / 65536), .ofNat (w.toNat / 16777216)]

theorem wordBytes_length (w : BitVec 32) : (wordBytes w).length = 4 := rfl

/-- The bytes of a structure whose fields are the words `ws`. -/
def wordsBytes (ws : List (BitVec 32)) : List UInt8 := ws.flatMap wordBytes

/-- The word at `pos`. -/
def wordOf (m : Nat → UInt8) (pos : Nat) : BitVec 32 :=
  .ofNat 32 ((m pos).toNat + 256 * (m (pos + 1)).toNat + 65536 * (m (pos + 2)).toNat +
    16777216 * (m (pos + 3)).toNat)

theorem wordOf_congr {m m' : Nat → UInt8} {pos pos' : Nat}
    (h : ∀ i, i < 4 → m (pos + i) = m' (pos' + i)) : wordOf m pos = wordOf m' pos' := by
  have h₀ := h 0 (by omega)
  have h₁ := h 1 (by omega)
  have h₂ := h 2 (by omega)
  have h₃ := h 3 (by omega)
  simp only [Nat.add_zero] at h₀
  rw [wordOf, wordOf, h₀, h₁, h₂, h₃]

/-- The memory of an array of words. -/
def wordsMem (word : Nat → BitVec 32) : Nat → UInt8 := fun i =>
  (wordBytes (word (i / 4))).getD (i % 4) 0

theorem wordOf_wordBytes {m : Nat → UInt8} {pos : Nat} {w : BitVec 32}
    (h : ∀ i, i < 4 → some (m (pos + i)) = (wordBytes w)[i]?) : wordOf m pos = w := by
  have h₀ := h 0 (by omega)
  have h₁ := h 1 (by omega)
  have h₂ := h 2 (by omega)
  have h₃ := h 3 (by omega)
  simp only [wordBytes, List.getElem?_cons_zero, List.getElem?_cons_succ, Option.some.injEq,
    Nat.add_zero] at h₀ h₁ h₂ h₃
  unfold wordOf
  rw [h₀, h₁, h₂, h₃]
  apply BitVec.eq_of_toNat_eq
  have hw := w.isLt
  simp only [UInt8.toNat_ofNat', BitVec.toNat_ofNat]
  omega

theorem wordOf_wordsMem (word : Nat → BitVec 32) (j : Nat) :
    wordOf (wordsMem word) (4 * j) = word j := by
  refine wordOf_wordBytes fun i hi => ?_
  unfold wordsMem
  rw [show (4 * j + i) / 4 = j by omega, show (4 * j + i) % 4 = i by omega,
    List.getD_eq_getElem?_getD, List.getElem?_eq_getElem (by exact hi)]
  rfl

theorem wordsBytes_length (ws : List (BitVec 32)) : (wordsBytes ws).length = 4 * ws.length := by
  induction ws with
  | nil => rfl
  | cons w ws ih =>
    simp only [wordsBytes, List.flatMap_cons, List.length_append, List.length_cons] at ih ⊢
    rw [ih]
    simp only [wordBytes, List.length_cons, List.length_nil]
    omega

theorem wordsBytes_getElem? {ws : List (BitVec 32)} {j i : Nat} {w : BitVec 32}
    (hj : ws[j]? = some w) (hi : i < 4) : (wordsBytes ws)[4 * j + i]? = (wordBytes w)[i]? := by
  induction ws generalizing j with
  | nil => simp at hj
  | cons v ws ih =>
    have hv := wordBytes_length v
    simp only [wordsBytes, List.flatMap_cons]
    cases j with
    | zero =>
      cases hj
      rw [List.getElem?_append_left (by omega), show 4 * 0 + i = i by omega]
    | succ j =>
      rw [List.getElem?_append_right (by omega), hv, show 4 * (j + 1) + i - 4 = 4 * j + i by omega]
      exact ih hj

/-- A memory that has the bytes of a structure has its words. -/
theorem HasBytes.wordOf {m : Nat → UInt8} {pos j : Nat} {ws : List (BitVec 32)} {w : BitVec 32}
    (h : HasBytes m pos (wordsBytes ws)) (hj : ws[j]? = some w) : wordOf m (pos + 4 * j) = w := by
  have hlt : j < ws.length := (List.getElem?_eq_some_iff.mp hj).1
  refine wordOf_wordBytes fun i hi => ?_
  rw [← wordsBytes_getElem? hj hi, ← h (4 * j + i) (by rw [wordsBytes_length]; omega),
    Nat.add_assoc]

end Nachos.Lib

import Mathlib.Data.List.Basic

/-! Byte memories, host files and the 32-bit integers of C. A memory is a
total function, so that a write past the end of a buffer is visible as a
change at an index outside it. A file is its list of bytes: a read stops at
the end of the file, a write behind the end fills the gap with zeros. -/

namespace Nachos.Lib

/-! ## Memories -/

/-- `m` with the bytes `bs` written from index `pos` on. -/
def overlay (m : Nat → UInt8) (pos : Nat) (bs : List UInt8) : Nat → UInt8 := fun i =>
  if pos ≤ i then (bs[i - pos]?).getD (m i) else m i

theorem overlay_of_lt {m : Nat → UInt8} {pos i : Nat} {bs : List UInt8} (h : i < pos) :
    overlay m pos bs i = m i := by
  unfold overlay
  rw [if_neg (by omega)]

theorem overlay_of_le {m : Nat → UInt8} {pos i : Nat} {bs : List UInt8}
    (h : pos + bs.length ≤ i) : overlay m pos bs i = m i := by
  unfold overlay
  split
  · rw [List.getElem?_eq_none (by omega)]; rfl
  · rfl

/-- The write as seen from a base address: offset `j` from `base`, where the
write starts at offset `q`. -/
theorem overlay_base (m : Nat → UInt8) (base q j : Nat) (bs : List UInt8) :
    overlay m (base + q) bs (base + j) =
      if q ≤ j then (bs[j - q]?).getD (m (base + j)) else m (base + j) := by
  unfold overlay
  by_cases hq : q ≤ j
  · rw [if_pos (by omega), if_pos hq, show base + j - (base + q) = j - q by omega]
  · rw [if_neg (by omega), if_neg hq]

theorem overlay_singleton (m : Nat → UInt8) (pos : Nat) (b : UInt8) :
    overlay m pos [b] = Function.update m pos b := by
  funext i
  rw [Function.update_apply]
  rcases Nat.lt_trichotomy i pos with hi | rfl | hi
  · rw [overlay_of_lt hi, if_neg (Nat.ne_of_lt hi)]
  · simp [overlay]
  · rw [overlay_of_le (by rw [List.length_singleton]; exact hi), if_neg (Nat.ne_of_gt hi)]

/-! ## Files -/

/-- The at most `n` bytes a file has from `pos` on. -/
def readBytes (f : List UInt8) (pos n : Nat) : List UInt8 := (f.drop pos).take n

/-- `f` with `bs` written at `pos`; a hole reads as zeros. -/
def writeBytes (f : List UInt8) (pos : Nat) (bs : List UInt8) : List UInt8 :=
  f.take pos ++ List.replicate (pos - f.length) 0 ++ bs ++ f.drop (pos + bs.length)

theorem readBytes_length_le (f : List UInt8) (pos n : Nat) : (readBytes f pos n).length ≤ n := by
  unfold readBytes
  rw [List.length_take]
  omega

/-- A read is complete if the file reaches so far. -/
theorem readBytes_length_eq (f : List UInt8) (pos : Nat) {n : Nat} (hn : 0 < n) :
    (readBytes f pos n).length = n ↔ pos + n ≤ f.length := by
  unfold readBytes
  rw [List.length_take, List.length_drop]
  omega

theorem writeBytes_length (f : List UInt8) (pos : Nat) (bs : List UInt8) :
    (writeBytes f pos bs).length = max f.length (pos + bs.length) := by
  unfold writeBytes
  simp only [List.length_append, List.length_take, List.length_replicate, List.length_drop]
  omega

/-- A write never makes the file shorter. -/
theorem length_le_writeBytes (f : List UInt8) (pos : Nat) (bs : List UInt8) :
    f.length ≤ (writeBytes f pos bs).length := by
  rw [writeBytes_length]
  exact Nat.le_max_left _ _

theorem readBytes_getElem? (f : List UInt8) (pos n i : Nat) :
    (readBytes f pos n)[i]? = if i < n then f[pos + i]? else none := by
  unfold readBytes
  rw [List.getElem?_take]
  split
  · rw [List.getElem?_drop]
  · rfl

theorem writeBytes_getElem?_of_lt {f : List UInt8} {pos i : Nat} (bs : List UInt8)
    (hpos : i < pos) (hlen : i < f.length) : (writeBytes f pos bs)[i]? = f[i]? := by
  have htake : i < (f.take pos).length := by
    rw [List.length_take]
    omega
  unfold writeBytes
  rw [List.append_assoc, List.append_assoc, List.getElem?_append_left htake,
    List.getElem?_take_of_lt hpos]

/-- What is written can be read back. -/
theorem readBytes_writeBytes (f : List UInt8) (pos : Nat) (bs : List UInt8) :
    readBytes (writeBytes f pos bs) pos bs.length = bs := by
  have hlen : (f.take pos ++ List.replicate (pos - f.length) 0).length = pos := by
    rw [List.length_append, List.length_take, List.length_replicate]
    omega
  unfold readBytes writeBytes
  rw [List.append_assoc, List.drop_left' hlen, List.take_left]

/-- A read in front of what is written. -/
theorem readBytes_writeBytes_of_le {f : List UInt8} {pos q n : Nat} (bs : List UInt8)
    (hpos : q + n ≤ pos) (hlen : q + n ≤ f.length) :
    readBytes (writeBytes f pos bs) q n = readBytes f q n := by
  apply List.ext_getElem?
  intro i
  rw [readBytes_getElem?, readBytes_getElem?]
  split
  · exact writeBytes_getElem?_of_lt bs (by omega) (by omega)
  · rfl

/-- Writing at the start leaves what is behind. -/
theorem readBytes_writeBytes_zero {f bs : List UInt8} {q n : Nat} (h : bs.length ≤ q) :
    readBytes (writeBytes f 0 bs) q n = readBytes f q n := by
  unfold readBytes writeBytes
  rw [List.take_zero, Nat.zero_sub, List.replicate_zero, List.nil_append, List.nil_append,
    List.drop_append, List.drop_eq_nil_of_le h, List.nil_append, List.drop_drop,
    show 0 + bs.length + (q - bs.length) = q by omega]

/-! ## Integers of C -/

/-- The values of a 32-bit `int`: from `-2 ^ 31` to `2 ^ 31 - 1`. -/
def IsInt (x : Int) : Prop := -2147483648 ≤ x ∧ x < 2147483648

instance (x : Int) : Decidable (IsInt x) := inferInstanceAs (Decidable (_ ∧ _))

/-- Conversion to a 32-bit `unsigned`. -/
def toUnsigned (x : Int) : Int := x % 4294967296

/-- Conversion to a 32-bit `int`, two's complement. -/
def toSigned (x : Int) : Int :=
  if x % 4294967296 < 2147483648 then x % 4294967296 else x % 4294967296 - 4294967296

theorem toUnsigned_of_nonneg {x : Int} (h : 0 ≤ x) (h' : x < 4294967296) : toUnsigned x = x := by
  unfold toUnsigned
  omega

theorem toSigned_toUnsigned (x : Int) : toSigned (toUnsigned x) = toSigned x := by
  unfold toSigned toUnsigned
  rw [Int.emod_emod_of_dvd x (Int.dvd_refl _)]

theorem toSigned_of_isInt {x : Int} (h : IsInt x) : toSigned x = x := by
  obtain ⟨h1, h2⟩ := h
  unfold toSigned
  split <;> omega

/-- Unsigned subtraction followed by a conversion to `int` gives the exact
difference whenever that is an `int`. -/
theorem toSigned_detour {x y : Int} (h : IsInt (x - y)) :
    toSigned (toUnsigned (toUnsigned x - y)) = x - y := by
  rw [toSigned_toUnsigned]
  unfold toUnsigned toSigned
  unfold IsInt at h
  split <;> omega

end Nachos.Lib

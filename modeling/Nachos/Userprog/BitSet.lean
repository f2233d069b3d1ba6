import Mathlib.Data.Finset.Max
import Nachos.Userprog.BitMap

/-! What a bitmap is for: a finite set of indices. `Mark` and `Clear` put an index in
and take it out, and `Find` takes the least one that is left; the set has nothing to
do with the words it is kept in, nor with what these hold besides. -/

namespace Nachos
open Lib

namespace BitMap

inductive Op
  | mark (which : Int)
  | clear (which : Int)
  | find

def step (b : BitMap) : Op → Except Fault BitMap
  | .mark which => b.mark which
  | .clear which => b.clear which
  | .find => .ok b.find.2

namespace Op

/-- What the assertions ask for. -/
def InRange (n : Nat) : Op → Prop
  | mark which => 0 ≤ which ∧ which < n
  | clear which => 0 ≤ which ∧ which < n
  | find => True

/-- What the operation makes of a set of numbers below `n`. -/
def apply (n : Nat) : Op → Finset Nat → Finset Nat
  | mark which, S => insert which.toNat S
  | clear which, S => S.erase which.toNat
  | find, S =>
    if h : (Finset.range n \ S).Nonempty then insert ((Finset.range n \ S).min' h) S else S

def setAfter (n : Nat) (ops : List Op) (S : Finset Nat) : Finset Nat :=
  ops.foldl (fun S op => op.apply n S) S

end Op

/-- The indices whose bits are set. -/
def toSet (b : BitMap) : Finset Nat := (Finset.range b.numBits).filter fun i => b.bit i = true

variable {b : BitMap} {i n : Nat}

@[simp] theorem mem_toSet : i ∈ b.toSet ↔ i < b.numBits ∧ b.bit i = true := by
  rw [toSet, Finset.mem_filter, Finset.mem_range]

theorem toSet_subset (b : BitMap) : b.toSet ⊆ Finset.range b.numBits := Finset.filter_subset _ _

theorem mem_rest : i ∈ Finset.range b.numBits \ b.toSet ↔ i < b.numBits ∧ b.bit i = false := by
  rw [Finset.mem_sdiff, Finset.mem_range, mem_toSet, not_and, Bool.not_eq_true]
  exact ⟨fun h => ⟨h.1, h.2 h.1⟩, fun h => ⟨h.1, fun _ => h.2⟩⟩

theorem toSet_new (n : Nat) (fresh : Nat → BitVec 32) : (new n fresh).toSet = ∅ := by
  refine Finset.eq_empty_of_forall_notMem fun i hi => ?_
  rw [mem_toSet, numBits_new] at hi
  rw [bit_new hi.1] at hi
  cases hi.2

theorem toSet_setBit (hi : i < b.numBits) : (b.setBit i).toSet = insert i b.toSet := by
  ext j
  rw [Finset.mem_insert, mem_toSet, mem_toSet, numBits_setBit, bit_setBit, Bool.or_eq_true,
    beq_iff_eq]
  constructor
  · rintro ⟨hj, hbit | rfl⟩
    · exact .inr ⟨hj, hbit⟩
    · exact .inl rfl
  · rintro (rfl | ⟨hj, hbit⟩)
    · exact ⟨hi, .inr rfl⟩
    · exact ⟨hj, .inl hbit⟩

theorem toSet_clearBit : (b.clearBit i).toSet = b.toSet.erase i := by
  ext j
  rw [Finset.mem_erase, mem_toSet, mem_toSet, numBits_clearBit, bit_clearBit, Bool.and_eq_true,
    bne_iff_ne]
  tauto

/-- `NumClear` counts what is left. -/
theorem numClear_eq_card (b : BitMap) : b.numClear = (Finset.range b.numBits \ b.toSet).card := by
  have hnodup : ((List.range b.numBits).filter fun i => !b.bit i).Nodup := List.nodup_range.filter _
  rw [numClear, ← List.toFinset_card_of_nodup hnodup]
  congr 1
  ext i
  rw [mem_rest, List.mem_toFinset, List.mem_filter, List.mem_range, Bool.not_eq_true']

theorem numClear_eq_sub (b : BitMap) : b.numClear = b.numBits - b.toSet.card := by
  rw [numClear_eq_card, Finset.card_sdiff_of_subset b.toSet_subset, Finset.card_range]

theorem rest_nonempty : (Finset.range b.numBits \ b.toSet).Nonempty ↔ b.numClear ≠ 0 := by
  rw [numClear_eq_card, Finset.card_ne_zero]

/-- `Find` takes the least index that is left. -/
theorem find_of_rest (h : (Finset.range b.numBits \ b.toSet).Nonempty) :
    b.find = ((((Finset.range b.numBits \ b.toSet).min' h : Nat) : Int),
      b.setBit ((Finset.range b.numBits \ b.toSet).min' h)) := by
  obtain ⟨i, hi, hclear, hleast, hfind⟩ := find_of_clear (Nat.pos_of_ne_zero (rest_nonempty.mp h))
  have hmin : (Finset.range b.numBits \ b.toSet).min' h = i := by
    refine Finset.min'_eq_iff _ _ _ |>.mpr ⟨mem_rest.mpr ⟨hi, hclear⟩, fun j hj => ?_⟩
    by_contra hlt
    have hset := hleast j (Nat.not_le.mp hlt)
    rw [(mem_rest.mp hj).2] at hset
    cases hset
  rw [hmin, hfind]

theorem step_toSet {op : Op} (hop : op.InRange b.numBits) :
    ∃ b', step b op = .ok b' ∧ b'.numBits = b.numBits ∧ b'.toSet = op.apply b.numBits b.toSet := by
  cases op with
  | mark which => exact ⟨_, if_pos hop, rfl, toSet_setBit (by have := hop.1; have := hop.2; omega)⟩
  | clear which => exact ⟨_, if_pos hop, rfl, toSet_clearBit⟩
  | find =>
    refine ⟨_, rfl, ?_⟩
    by_cases hrest : (Finset.range b.numBits \ b.toSet).Nonempty
    · have hmem := (mem_rest.mp (Finset.min'_mem _ hrest)).1
      rw [find_of_rest hrest, Op.apply, dif_pos hrest]
      exact ⟨rfl, toSet_setBit hmem⟩
    · have hfull : b.numClear = 0 := not_not.mp (mt rest_nonempty.mpr hrest)
      rw [find_of_full hfull, Op.apply, dif_neg hrest]
      exact ⟨rfl, rfl⟩

theorem run_toSet {ops : List Op} (hops : ∀ op ∈ ops, op.InRange b.numBits) :
    ∃ b', Run step b ops b' ∧ b'.numBits = b.numBits ∧
      b'.toSet = Op.setAfter b.numBits ops b.toSet := by
  induction ops generalizing b with
  | nil => exact ⟨b, .nil, rfl, rfl⟩
  | cons op ops ih =>
    obtain ⟨b₁, hstep, hbits, hset⟩ := step_toSet (hops op List.mem_cons_self)
    obtain ⟨b', hrun, hbits', hset'⟩ := ih fun o ho => by
      rw [hbits]
      exact hops o (List.mem_cons_of_mem _ ho)
    refine ⟨b', .cons hstep hrun, hbits'.trans hbits, ?_⟩
    rw [hset', hbits, hset]
    rfl

/-- The set goes through a file. -/
theorem writeBack_fetchFrom {b other : BitMap} (hbits : other.numBits = b.numBits) {d : Sectors}
    {file : OpenFile} (hs : file.hdr.Sound) (hlen : b.numWords * 4 ≤ file.hdr.length)
    (buf : Nat → UInt8) :
    ∃ d' b', b.writeBack d file buf = .ok d' ∧ other.fetchFrom d' file = .ok b' ∧
      b'.numBits = b.numBits ∧ b'.toSet = b.toSet := by
  obtain ⟨d', hd', hwritten, -⟩ := writeBack_front (d := d) hs buf hlen
  have hwords : other.numWords = b.numWords := by rw [numWords, numWords, hbits]
  obtain ⟨b', hb', hbits', hread⟩ := fetchFrom_front (b := other) (d := d') hs (hwords ▸ hlen)
  refine ⟨d', b', hd', hb', hbits'.trans hbits, ?_⟩
  ext i
  rw [mem_toSet, mem_toSet, hbits', hbits]
  refine and_congr_right fun hi => ?_
  rw [hread i (hbits ▸ hi), hwritten i hi]

/-- After any marks, clears and searches on a new map of any number of bits, whatever
the words it is given hold, the bits that are set are those of the set that the
operations make up: each is tested in a word of the map, `NumClear` counts those
that are left, `Find` returns and adds the least of them, or returns -1 if there is
none, and the set comes through a file that has room for the map. -/
theorem bitmap_is_set (n : Nat) (fresh : Nat → BitVec 32) {ops : List Op}
    (valid : ∀ op ∈ ops, op.InRange n) :
    ∃ b S, Run step (new n fresh) ops b ∧ S = Op.setAfter n ops ∅ ∧ S ⊆ Finset.range n ∧
      (∀ i, i < n → b.test i = .ok (decide (i ∈ S)) ∧ i / bitsInWord < b.numWords ∧
        (b.map (i / bitsInWord) &&& 1#32 <<< (i % bitsInWord) ≠ 0 ↔ i ∈ S)) ∧
      b.numClear = n - S.card ∧ (b.find.1 = -1 ↔ b.numClear = 0) ∧
      (b.numClear = 0 → b.find.2 = b) ∧
      (b.numClear ≠ 0 → ∃ i, IsLeast {j | j < n ∧ j ∉ S} i ∧ b.find.1 = i ∧
        b.find.2.toSet = insert i S) ∧
      ∀ (other : BitMap) (d : Sectors) (file : OpenFile) (buf : Nat → UInt8), other.numBits = n →
        file.hdr.Sound → b.numWords * 4 ≤ file.hdr.length →
        ∃ d' b', b.writeBack d file buf = .ok d' ∧ other.fetchFrom d' file = .ok b' ∧
          b'.numBits = n ∧ b'.toSet = S := by
  obtain ⟨b, hrun, hbits, hset⟩ := run_toSet (b := new n fresh) (by rwa [numBits_new])
  rw [numBits_new] at hbits
  rw [numBits_new, toSet_new] at hset
  subst hbits
  refine ⟨b, b.toSet, hrun, hset, b.toSet_subset, fun i hi => ⟨?_, ?_, ?_⟩, b.numClear_eq_sub,
    ?_, fun h => ?_, fun h => ?_, fun other d file buf hother hs hlen =>
      writeBack_fetchFrom hother hs hlen buf⟩
  · have hbit : decide (i ∈ b.toSet) = b.bit i := by
      rw [Bool.eq_iff_iff, decide_eq_true_eq, mem_toSet]
      exact and_iff_right hi
    rw [hbit]
    exact if_pos ⟨Int.natCast_nonneg i, Int.ofNat_lt.mpr hi⟩
  · exact div_lt_numWords hi
  · rw [← bit_eq_true_iff, mem_toSet]
    exact (and_iff_right hi).symm
  · constructor
    · intro h
      by_contra hne
      rw [find_of_rest (rest_nonempty.mpr hne)] at h
      exact absurd h (by simp)
    · intro h
      rw [find_of_full h]
  · rw [find_of_full h]
  · have hrest := rest_nonempty.mpr h
    have hleast := Finset.isLeast_min' _ hrest
    rw [find_of_rest hrest]
    have hset : {j | j < b.numBits ∧ j ∉ b.toSet} = ↑(Finset.range b.numBits \ b.toSet) := by
      ext j
      rw [Set.mem_ofPred_eq, Finset.mem_coe, Finset.mem_sdiff, Finset.mem_range]
    refine ⟨_, ?_, rfl, toSet_setBit (Finset.mem_range.mp (Finset.mem_sdiff.mp hleast.1).1)⟩
    rw [hset]
    exact hleast

/-- A map of 40 bits in words that are all ones. -/
theorem bitmap_is_set_forty : ∃ b,
    Run step (new 40 fun _ => .allOnes 32) [.mark 33, .mark 1, .clear 33] b ∧
      b.test 1 = .ok true ∧ b.test 33 = .ok false ∧ b.numClear = 39 := by
  have valid : ∀ op ∈ [Op.mark 33, .mark 1, .clear 33], op.InRange 40 := by
    simp [Op.InRange]
  obtain ⟨b, S, hrun, hS, -, htest, hcount, -⟩ := bitmap_is_set 40 (fun _ => .allOnes 32) valid
  obtain rfl : S = {1} := hS
  exact ⟨b, hrun, (htest 1 (by omega)).1, (htest 33 (by omega)).1, hcount⟩

end BitMap
end Nachos

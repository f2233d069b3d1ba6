import Nachos.Userprog.ExecCall
import Nachos.Userprog.WriteCall
import Nachos.Userprog.ReadCall

/-! The kernel's own arrays in the three system calls that copy user data
(exception.cc): `ch` of `SC_Write` with 500 bytes, `filename` of `SC_Exec` with
100, and `buffer` of `SRead` with `size + 10`. A store or an index outside them
is an outcome of the loops, `overrun`. -/

namespace Nachos
open Lib

/-- What the loop of `SC_Exec` comes to, with the array it fills. -/
inductive NameLoop
  | name (filename : FileName) (k : Kernel)
  | returned (k : Kernel)
  | killed (k : Kernel)
  | overrun (k : Kernel)

namespace Kernel

/-- The loop of `SC_Exec`: `j` is the byte at `fileAddress`, and `room` what is
left of `filename`. -/
def nameLoop (random : Nat → Nat) (merged : Bool) (room : Nat) (k : Kernel)
    (fileAddress : BitVec 32) (filename : FileName) (j : UInt8) : Except Fault NameLoop :=
  if j = 0 then .ok (.name filename k)
  else
    match room with
    | 0 => .ok (.overrun k)
    | room + 1 => do
      match ← k.readMem (fileAddress + 1) (random 2) merged with
      | .value j' k => nameLoop random merged room k (fileAddress + 1) (filename ++ [j]) j'
      | .failed k => .ok (.returned k)
      | .killed k => .ok (.killed k)

/-- From the second reading of the first byte on. -/
def nameRetry (k : Kernel) (random : Nat → Nat) (merged : Bool) (fileAddress : BitVec 32) :
    Except Fault NameLoop := do
  match ← k.readMem fileAddress (random 1) merged with
  | .value j k => nameLoop random merged 100 k fileAddress [] j
  | .failed _ => .error .undefined
  | .killed k => .ok (.killed k)

/-- The copying of the name, behind the trap. -/
def nameCopy (k : Kernel) (random : Nat → Nat) (merged : Bool) : Except Fault NameLoop := do
  match ← k.readMem (k.registers 4) (random 0) merged with
  | .value j k1 => nameLoop random merged 100 k1 (k.registers 4) [] j
  | .failed k1 => k1.nameRetry random merged (k.registers 4)
  | .killed k1 => .ok (.killed k1)

variable {k k' k1 : Kernel} {addr : BitVec 32} {random : Nat → Nat} {merged : Bool}
  {fuel : Nat}

/-! ## `SC_Write` -/

theorem writeCall_overrun_iff :
    (∃ fuel k', k.writeCall random merged fuel = .ok (.overrun k')) ↔
      ∃ (bs : List UInt8) (b : UInt8), bs.length = 500 ∧ 0 ∉ bs ∧
        k.Fetches random merged (k.registers 4) (bs ++ [b]) := by
  constructor
  · intro ⟨fuel, k', h⟩
    obtain ⟨r, hloop, h⟩ := bind_eq_ok.mp h
    cases r with
    | overrun k1 =>
      obtain ⟨bs, b, k2, hnul, hle, hread, hfull, -⟩ :=
        copyLoop_reading (.inr ⟨k1, rfl⟩) (Nat.zero_le _) hloop
      rw [List.nil_append] at hfull
      rw [List.length_nil, Nat.zero_add] at hle
      exact ⟨bs, b, by omega, hnul, k2, hread⟩
    | string ch k1 => cases h
    | killed k1 => cases h
    | busy k1 => cases h
  · intro ⟨bs, b, hlen, hnul, k', hread⟩
    obtain ⟨fuel, hloop⟩ := @Reading.copyLoop k k' (k.registers 4) random merged 0 bs [] b
      (.overrun k') hread hnul (by rw [List.length_nil]; omega)
      ⟨by rw [List.nil_append]; omega, rfl⟩
    refine ⟨fuel, k', ?_⟩
    unfold writeCall
    rw [hloop, ok_bind]

/-! ## `SC_Exec` -/

/-- `copyName` is this loop, but for names that do not leave room for a NUL. -/
theorem copyName_eq_nameLoop {room : Nat} {filename : FileName} {j : UInt8} :
    copyName (random 2) merged room k addr filename j =
      nameLoop random merged room k addr filename j >>= fun r => match r with
        | .name filename' k =>
          if filename'.length < filename.length + room then .ok (.name filename' k)
          else .error .undefined
        | .returned k => .ok (.returned k)
        | .killed k => .ok (.killed k)
        | .overrun _ => .error .undefined := by
  induction room generalizing k addr filename j with
  | zero =>
    rw [copyName, nameLoop]
    split
    · rw [ok_bind]
      exact (if_neg (Nat.lt_irrefl _)).symm
    · rfl
  | succ room ih =>
    rw [copyName, nameLoop]
    split
    · rw [ok_bind]
      exact (if_pos (by omega)).symm
    · cases k.readMem (addr + 1) (random 2) merged with
      | error e => rfl
      | ok r =>
        cases r with
        | value j' k1 =>
          rw [ok_bind, ok_bind]
          dsimp only
          rw [ih, List.length_append, List.length_singleton, Nat.add_assoc, Nat.add_comm 1]
        | failed k1 => rfl
        | killed k1 => rfl

theorem nameLoop_overrun_iff {room : Nat} {filename : FileName} {j : UInt8} :
    (∃ k', nameLoop random merged room k addr filename j = .ok (.overrun k')) ↔
      j ≠ 0 ∧ ∀ i < room, ∃ b, b ≠ 0 ∧ k.peek (addr + BitVec.ofNat 32 (i + 1)) = some b := by
  induction room generalizing k addr filename j with
  | zero =>
    rw [nameLoop]
    split
    · rename_i hj
      exact ⟨nofun, fun h => absurd hj h.1⟩
    · rename_i hj
      exact ⟨fun _ => ⟨hj, fun i hi => absurd hi (Nat.not_lt_zero i)⟩, fun _ => ⟨k, rfl⟩⟩
  | succ room ih =>
    rw [nameLoop]
    split
    · rename_i hj
      exact ⟨nofun, fun h => absurd hj h.1⟩
    · rename_i hj
      rw [and_iff_right hj]
      constructor
      · intro ⟨k', h⟩
        obtain ⟨r, hread, h⟩ := bind_eq_ok.mp h
        cases r with
        | value j' k1 =>
          obtain ⟨hpeek, hbrowse⟩ := readMem_value hread
          obtain ⟨hj', hrest⟩ := ih.mp ⟨k', h⟩
          intro i hi
          cases i with
          | zero => exact ⟨j', hj', hpeek⟩
          | succ i =>
            obtain ⟨b, hb, hbyte⟩ := hrest i (Nat.lt_of_succ_lt_succ hi)
            rw [next_address, hbrowse.peek] at hbyte
            exact ⟨b, hb, hbyte⟩
        | failed k1 => cases h
        | killed k1 => cases h
      · intro h
        obtain ⟨j', hj', hpeek⟩ := h 0 (Nat.succ_pos room)
        obtain ⟨k1, hread, hbrowse⟩ := readMem_of_peek hpeek (random 2) merged
        obtain ⟨k', hrest⟩ := (@ih k1 (addr + 1) (filename ++ [j]) j').mpr ⟨hj', fun i hi => by
          rw [next_address, hbrowse.peek]
          exact h (i + 1) (Nat.succ_lt_succ hi)⟩
        exact ⟨k', bind_eq_ok.mpr ⟨_, hread, hrest⟩⟩

theorem nameRetry_overrun_iff :
    (∃ k', k.nameRetry random merged addr = .ok (.overrun k')) ↔
      ∀ i ≤ 100, ∃ b, b ≠ 0 ∧ k.peek (addr + BitVec.ofNat 32 i) = some b := by
  have hzero : addr + BitVec.ofNat 32 0 = addr := BitVec.add_zero addr
  constructor
  · intro ⟨k', h⟩
    obtain ⟨r, hread, h⟩ := bind_eq_ok.mp h
    cases r with
    | value j k1 =>
      obtain ⟨hpeek, hbrowse⟩ := readMem_value hread
      obtain ⟨hj, hrest⟩ := nameLoop_overrun_iff.mp ⟨k', h⟩
      intro i hi
      cases i with
      | zero => exact ⟨j, hj, hzero.symm ▸ hpeek⟩
      | succ i =>
        obtain ⟨b, hb, hbyte⟩ := hrest i hi
        exact ⟨b, hb, hbrowse.peek _ ▸ hbyte⟩
    | failed k1 => cases h
    | killed k1 => cases h
  · intro h
    obtain ⟨j, hj, hpeek⟩ := h 0 (Nat.zero_le _)
    rw [hzero] at hpeek
    obtain ⟨k1, hread, hbrowse⟩ := readMem_of_peek hpeek (random 1) merged
    obtain ⟨k', hrest⟩ := (@nameLoop_overrun_iff k1 addr random merged 100 [] j).mpr
      ⟨hj, fun i hi => by
        rw [hbrowse.peek]
        exact h (i + 1) hi⟩
    exact ⟨k', bind_eq_ok.mpr ⟨_, hread, hrest⟩⟩

theorem nameCopy_overrun_iff :
    (∃ k', k.nameCopy random merged = .ok (.overrun k')) ↔
      ∃ k1, k.bringIn (k.registers 4) (random 0) = .ok k1 ∧
        ∀ i ≤ 100, ∃ b, b ≠ 0 ∧ k1.peek (k.registers 4 + BitVec.ofNat 32 i) = some b := by
  have hagain {k1 : Kernel} (h : k.bringIn (k.registers 4) (random 0) = .ok k1) :
      k.nameCopy random merged = k1.nameRetry random merged (k.registers 4) := readMem_again h
  constructor
  · intro ⟨k', h⟩
    obtain ⟨k1, hin⟩ : ∃ k1, k.bringIn (k.registers 4) (random 0) = .ok k1 := by
      obtain ⟨r, hread, -⟩ := bind_eq_ok.mp h
      exact bringIn_of_readMem hread
    exact ⟨k1, hin, nameRetry_overrun_iff.mp ⟨k', (hagain hin).symm.trans h⟩⟩
  · intro ⟨k1, hin, h⟩
    rw [hagain hin]
    exact nameRetry_overrun_iff.mpr h

theorem execFrom_of_overrun {c : Choices} {j : UInt8}
    (h : nameLoop c.random c.merged 100 k addr [] j = .ok (.overrun k')) :
    k.execFrom c addr j = .error .undefined := by
  unfold execFrom
  rw [copyName_eq_nameLoop, h, ok_bind, error_bind]

/-- A call that overruns `filename` is undefined. -/
theorem execCall_of_overrun {c : Choices}
    (h : k.trap.nameCopy c.random c.merged = .ok (.overrun k')) :
    k.execCall c = .error .undefined := by
  obtain ⟨r, hread, h⟩ := bind_eq_ok.mp h
  unfold execCall
  rw [hread, ok_bind]
  cases r with
  | value j k1 => exact execFrom_of_overrun h
  | failed k1 =>
    obtain ⟨r, hread, h⟩ := bind_eq_ok.mp h
    dsimp only
    unfold execRetry
    rw [hread, ok_bind]
    cases r with
    | value j k2 => exact execFrom_of_overrun h
    | failed k2 => cases h
    | killed k2 => cases h
  | killed k1 => cases h

/-! ## `SRead` -/

/-- `SRead` stays inside its buffer. For the keyboard the word must fit with its
NUL, or at the end of the input the uninitialised buffer must hold a NUL; and
`size` is not below -1. -/
def Fits (size id : Int) (word : Option Word) (left : Nat → UInt8) : Prop :=
  if id = 0 then
    IsInt (size + 10) ∧ -1 ≤ size ∧ match word with
      | some word => word.bytes.length < size + 10
      | none => ∃ z : Nat, z < size + 10 ∧ left z = 0
  else size ≤ 0 ∨ IsInt (size + 10)

theorem deliver_not_overrun {length rounds num : Nat} {source : Nat → Option UInt8}
    {st : List (BitVec 32)} (h : num + rounds ≤ length) :
    deliver random merged addr length source rounds num k st ≠ .ok (.overrun k') := by
  induction rounds generalizing num k st with
  | zero => exact nofun
  | succ rounds ih =>
    intro hr
    rw [deliver, if_pos (by omega)] at hr
    split at hr
    · cases hr
    · obtain ⟨r, -, hr⟩ := bind_eq_ok.mp hr
      cases r with
      | stored k1 =>
        dsimp only at hr
        split at hr
        · cases hr
        · exact ih (by omega) hr
      | failed k1 =>
        dsimp only at hr
        split at hr
        · cases hr
        · exact ih (by omega) hr
      | killed k1 => cases hr

theorem readKeyboard_in_bounds {size : Int} {word : Option Word} {left buffer : Nat → UInt8}
    {z : Nat} (hscan : scanf (bufferLength size) left word = some buffer)
    (hnul : findNul (bufferLength size) buffer = some z) :
    (∀ k', k.readKeyboard random merged addr size word left ≠ .ok (.overrun k')) ↔ -1 ≤ size := by
  obtain ⟨hz, -, -⟩ := findNul_eq_some.mp hnul
  obtain ⟨-, hz'⟩ := lt_bufferLength.mp hz
  have hlength := bufferLength_eq hz
  rw [readKeyboard_eq hscan hnul]
  dsimp only
  generalize hresult : (if (z : Int) > size + 1 then size + 1 else (z : Int) + 1) = result
  have hbound : (0 ≤ result ∧ result < bufferLength size) ↔ -1 ≤ size := by
    rw [← hresult]
    split <;> omega
  rw [← hbound]
  constructor
  · intro h
    by_contra hout
    exact h k (if_neg hout)
  · intro hin k'
    rw [if_pos hin]
    exact deliver_not_overrun (by omega)

theorem sRead_in_bounds_iff {size id : Int} {word : Option Word} {left : Nat → UInt8}
    {file : List UInt8} :
    (∀ k', k.sRead random merged addr size id word left file ≠ .ok (.overrun k')) ↔
      Fits size id word left := by
  unfold sRead Fits
  split
  · -- the keyboard
    cases word with
    | some word =>
      dsimp only
      by_cases hfit : word.bytes.length < bufferLength size
      · obtain ⟨buffer, hscan, hnul, -⟩ := @scanf_word (bufferLength size) word left hfit
        obtain ⟨hint, hlen⟩ := lt_bufferLength.mp hfit
        rw [readKeyboard_in_bounds hscan hnul, and_iff_right hint, and_iff_left hlen]
      · refine iff_of_false (fun h => h k ?_) fun h => hfit (lt_bufferLength.mpr ⟨h.1, h.2.2⟩)
        have hscan : scanf (bufferLength size) left (some word) = none := if_neg hfit
        unfold readKeyboard
        rw [hscan]
    | none =>
      dsimp only
      have hscan : scanf (bufferLength size) left none = some left := rfl
      cases hnul : findNul (bufferLength size) left with
      | some z =>
        obtain ⟨hz, h0, -⟩ := findNul_eq_some.mp hnul
        obtain ⟨hint, hlen⟩ := lt_bufferLength.mp hz
        rw [readKeyboard_in_bounds hscan hnul, and_iff_right hint,
          and_iff_left ⟨z, hlen, h0⟩]
      | none =>
        refine iff_of_false (fun h => h k ?_) ?_
        · unfold readKeyboard
          rw [hscan]
          dsimp only
          rw [hnul]
        · rintro ⟨hint, -, z, hz, h0⟩
          exact findNul_eq_none.mp hnul z (lt_bufferLength.mpr ⟨hint, hz⟩) h0
  · -- a file
    unfold readFile
    rcases Int.lt_or_le 0 size with hpos | hneg
    · rw [or_iff_right (by omega)]
      constructor
      · intro h
        by_contra hint
        obtain ⟨rounds, hrounds⟩ : ∃ rounds, size.toNat = rounds + 1 :=
          ⟨size.toNat - 1, by omega⟩
        refine h k ?_
        rw [hrounds, deliver, if_neg fun h => hint (lt_bufferLength.mp h).1]
      · intro hint k'
        have := size_lt_bufferLength hpos hint
        exact deliver_not_overrun (by omega)
    · refine iff_of_true (fun k' => ?_) (.inl hneg)
      rw [Int.toNat_of_nonpos hneg]
      intro h
      cases h

/-! ## The three copies -/

/-- `SC_Write` stays inside `ch` exactly if the bytes that are read do not start
with 500 bytes without a NUL and one more; `SC_Exec` inside `filename` exactly
if, with the page of the first byte brought in, one of the first 101 bytes is a
NUL or is not in memory; and `SRead` inside `buffer` exactly if its argument and
its input fit. -/
theorem copies_in_bounds_iff (k : Kernel) (random : Nat → Nat) (merged : Bool)
    (addr : BitVec 32) (size id : Int) (word : Option Word) (left : Nat → UInt8)
    (file : List UInt8) :
    ((∀ fuel k', k.writeCall random merged fuel ≠ .ok (.overrun k')) ↔
      ¬ ∃ (bs : List UInt8) (b : UInt8), bs.length = 500 ∧ 0 ∉ bs ∧
        k.Fetches random merged (k.registers 4) (bs ++ [b])) ∧
    ((∀ k', k.nameCopy random merged ≠ .ok (.overrun k')) ↔
      ¬ ∃ k1, k.bringIn (k.registers 4) (random 0) = .ok k1 ∧
        ∀ i ≤ 100, ∃ b, b ≠ 0 ∧ k1.peek (k.registers 4 + BitVec.ofNat 32 i) = some b) ∧
    ((∀ k', k.sRead random merged addr size id word left file ≠ .ok (.overrun k')) ↔
      Fits size id word left) := by
  refine ⟨?_, ?_, sRead_in_bounds_iff⟩
  · rw [← writeCall_overrun_iff]
    simp only [not_exists, ne_eq]
  · rw [← @nameCopy_overrun_iff k random merged]
    simp only [not_exists, ne_eq]

/-! ## Concrete calls -/

/-- An executable with 600 bytes of data at 512. -/
def textFile : NoffFile where
  bytes := [0xbadfad, 0, 40, 8, 512, 48, 600, 1112, 0, 100, 0x8c040000, 0].flatMap encodeWord ++
    List.replicate 600 7
  whole := by decide +kernel
  magic := by decide +kernel
  code_size := by decide +kernel
  initData_size := by decide +kernel
  uninitData_size := by decide +kernel

/-- The machine started on it. -/
def Config.text : Config where
  swapChoice := 2
  exe := fun name => if name = [97] then some textFile else none
  program := [97]
  junk := fun _ => false

/-- The program makes the system call `number` with its first argument 512. -/
def textCall (number : BitVec 32) : List Event :=
  [.instr [] (Registers.write (Registers.write (fun _ => 0) 2 number) 4 512), .trap]

/-- The `n` bytes from the first argument on are in memory, and are no NULs. -/
def textAt (n : Nat) (k : Kernel) : Bool :=
  (List.range n).all fun i => k.peek (k.registers 4 + BitVec.ofNat 32 i) == some 7

theorem textAt_iff {n : Nat} : textAt n k = true ↔
    ∀ i < n, k.peek (k.registers 4 + BitVec.ofNat 32 i) = some 7 := by
  simp only [textAt, List.all_eq_true, List.mem_range, beq_iff_eq]

/-- Eleven letters. -/
def longWord : Word where
  bytes := List.replicate 11 97
  nonempty := List.cons_ne_nil _ _
  solid := by simp [isSpace]

/-- The loops run over 600 and 300 bytes without a NUL. A word of eleven letters
does not fit into the buffer for one byte, and for a size of -5 the NUL is put
at index -4. -/
theorem copies_out_of_bounds :
    (∃ k0 k, boot Config.text = .ok k0 ∧
      Run step k0 (.fault 512 0 :: .fault 768 0 :: textCall scWrite) k ∧
      ∃ fuel k', k.writeCall (fun _ => 0) false fuel = .ok (.overrun k')) ∧
    (∃ k0 k, boot (.sample 2) = .ok k0 ∧ Run step k0 (.fault 512 0 :: textCall scExec) k ∧
      ∃ k', k.nameCopy (fun _ => 0) false = .ok (.overrun k')) ∧
    (∀ k : Kernel, k.sRead (fun _ => 0) false 1024 1 0 (some longWord) (fun _ => 0) [] =
      .ok (.overrun k)) ∧
    ∀ k : Kernel, k.sRead (fun _ => 0) false 1024 (-5) 0 (some wordSample) (fun _ => 0) [] =
      .ok (.overrun k) := by
  refine ⟨?_, ?_, fun _ => rfl, fun _ => rfl⟩
  · have hdemo : Config.text.reaches (.fault 512 0 :: .fault 768 0 :: textCall scWrite)
        (textAt 501) = true := by
      decide +kernel
    obtain ⟨k0, k, hboot, hrun, hp⟩ := Config.reaches_iff.mp hdemo
    refine ⟨k0, k, hboot, hrun, writeCall_overrun_iff.mpr
      ⟨List.replicate 500 7, 7, List.length_replicate, ?_, reading_of_peek 0 ?_⟩⟩
    · intro hmem
      exact absurd (List.eq_of_mem_replicate hmem) (by decide)
    intro i b hb
    rw [← List.replicate_succ', List.getElem?_replicate] at hb
    split at hb
    · rename_i hi
      cases hb
      rw [Nat.zero_add]
      exact textAt_iff.mp hp i hi
    · cases hb
  · have hdemo : (Config.sample 2).reaches (.fault 512 0 :: textCall scExec)
        (fun k => !decide (k.Faults (k.registers 4)) && textAt 101 k) = true := by
      decide +kernel
    obtain ⟨k0, k, hboot, hrun, hp⟩ := Config.reaches_iff.mp hdemo
    obtain ⟨hflt, hp⟩ := Bool.and_eq_true_iff.mp hp
    refine ⟨k0, k, hboot, hrun, nameCopy_overrun_iff.mpr
      ⟨k, bringIn_of_not_faults (by simpa using hflt) 0, fun i hi => ⟨7, by decide, ?_⟩⟩⟩
    exact textAt_iff.mp hp i (Nat.lt_succ_of_le hi)

end Kernel
end Nachos

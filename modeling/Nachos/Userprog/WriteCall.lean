import Nachos.Userprog.UserMemory

/-! `SC_Write` (exception.cc): the copy loop and `SWrite`. The loop reads byte
after byte through `ReadMem`, the same byte again after a page fault, and stops
at the first NUL; the `size` of the call is not looked at. Since a page fault
need not be resolved, the loop need not end. -/

namespace Nachos
open Lib

abbrev scWrite : BitVec 32 := 7

/-- What the copy loop comes to: the bytes before the NUL; a store behind the
500 bytes of `ch`; the end of the thread; or no end so far. -/
inductive CopyLoop
  | string (ch : List UInt8) (k : Kernel)
  | overrun (k : Kernel)
  | killed (k : Kernel)
  | busy (k : Kernel)

/-- What the call passes on, and to whom. -/
inductive Output
  | none
  | terminal (bytes : List UInt8)
  | file (id : Int) (bytes : List UInt8)
  deriving DecidableEq, Repr

inductive WriteEnd
  | returned (output : Output) (k : Kernel)
  | overrun (k : Kernel)
  | killed (k : Kernel)
  | busy (k : Kernel)

/-- `SWrite(buffer, size, id)` for a buffer of `size` bytes and a NUL. -/
def sWrite (buffer : List UInt8) (id : Int) : Output :=
  if id = 1 then .terminal buffer else if 2 ≤ id then .file id buffer else .none

namespace Kernel

/-- The copy loop from its `n`th reading on, for at most `fuel` readings; `j` is
the length of `ch`. -/
def copyLoop (random : Nat → Nat) (merged : Bool) (arg1 : BitVec 32) (fuel n : Nat) (k : Kernel)
    (ch : List UInt8) : Except Fault CopyLoop :=
  match fuel with
  | 0 => .ok (.busy k)
  | fuel + 1 => do
    match ← k.readMem (arg1 + BitVec.ofNat 32 ch.length) (random n) merged with
    | .value i k =>
      if ch.length < 500 then
        if i = 0 then .ok (.string ch k)
        else copyLoop random merged arg1 fuel (n + 1) k (ch ++ [i])
      else .ok (.overrun k)
    -- `j=j-1`, and `j++` again
    | .failed k => copyLoop random merged arg1 fuel (n + 1) k ch
    | .killed k => .ok (.killed k)

/-- `SC_Write` behind the trap. -/
def writeCall (k : Kernel) (random : Nat → Nat) (merged : Bool) (fuel : Nat) :
    Except Fault WriteEnd := do
  match ← copyLoop random merged (k.registers 4) fuel 0 k [] with
  | .string ch k1 =>
    .ok (.returned (if ch = [] then .none else sWrite ch (k.registers 6).toInt) (k1.goTo .user))
  | .overrun k1 => .ok (.overrun k1)
  | .killed k1 => .ok (.killed k1)
  | .busy k1 => .ok (.busy k1)

/-- The call outputs what it should: it returns, and the file `id` gets the
`size` bytes the user has in the buffer. -/
def WritesExactly (k : Kernel) (random : Nat → Nat) (merged : Bool) : Prop :=
  ∃ bs : List UInt8, bs.length = (k.registers 5).toInt ∧ k.UserBytes (k.registers 4) bs ∧
    ∃ fuel k', k.writeCall random merged fuel =
      .ok (.returned (.file (k.registers 6).toInt bs) k')

/-! ## Reading one byte after the other -/

/-- From the `n`th reading on, the bytes `addr + j`, `addr + j + 1` and so on are
read one after the other, each again after a page fault: they are `bs`. -/
inductive Reading (random : Nat → Nat) (merged : Bool) (addr : BitVec 32) :
    Nat → Nat → Kernel → List UInt8 → Kernel → Prop
  | nil {j n : Nat} {k : Kernel} : Reading random merged addr j n k [] k
  | retry {j n : Nat} {k k1 k' : Kernel} {bs : List UInt8} (more : bs ≠ [])
    (h : k.readMem (addr + BitVec.ofNat 32 j) (random n) merged = .ok (.failed k1))
    (rest : Reading random merged addr j (n + 1) k1 bs k') :
    Reading random merged addr j n k bs k'
  | next {j n : Nat} {k k1 k' : Kernel} {b : UInt8} {bs : List UInt8}
    (h : k.readMem (addr + BitVec.ofNat 32 j) (random n) merged = .ok (.value b k1))
    (rest : Reading random merged addr (j + 1) (n + 1) k1 bs k') :
    Reading random merged addr j n k (b :: bs) k'

/-- Read byte by byte from `addr` on, with every page fault served, user memory
gives `bs`. -/
def Fetches (k : Kernel) (random : Nat → Nat) (merged : Bool) (addr : BitVec 32)
    (bs : List UInt8) : Prop :=
  ∃ k', Reading random merged addr 0 0 k bs k'

variable {k k' k1 : Kernel} {addr : BitVec 32} {random : Nat → Nat} {merged : Bool}
  {j n fuel : Nat} {bs ch : List UInt8} {b : UInt8}

theorem reading_nil (h : Reading random merged addr j n k [] k') : k' = k := by
  cases h with
  | nil => rfl
  | retry more => exact absurd rfl more

/-- Bytes whose pages are in memory are read as they stand there. -/
theorem Reading.peek_eq (h : Reading random merged addr j n k bs k')
    (hin : ∀ i < bs.length, (k.peek (addr + BitVec.ofNat 32 (j + i))).isSome) (i : Nat) (b : UInt8)
    (hb : bs[i]? = some b) : k.peek (addr + BitVec.ofNat 32 (j + i)) = some b := by
  induction h generalizing i with
  | nil => cases hb
  | retry more h _ _ =>
    obtain ⟨x, hx⟩ := peek_isSome_iff.mp (hin 0 (List.length_pos_iff.mpr more))
    obtain ⟨k2, hval, -⟩ := readMem_of_mapped hx (random _) merged
    cases hval.symm.trans h
  | @next j n k k1 k' b0 bs h _ ih =>
    obtain ⟨x, hx⟩ := peek_isSome_iff.mp (hin 0 (Nat.succ_pos _))
    obtain ⟨k2, hval, hbrowse⟩ := readMem_of_mapped hx (random _) merged
    cases hval.symm.trans h
    cases i with
    | zero =>
      cases hb
      exact hx.peek_eq
    | succ i =>
      have hshift (i : Nat) : j + 1 + i = j + (i + 1) := by omega
      have hrest := ih (fun i hi => by
        rw [hbrowse.peek, hshift]
        exact hin (i + 1) (Nat.succ_lt_succ hi)) i hb
      rwa [hbrowse.peek, hshift] at hrest

theorem reading_of_peek (n : Nat)
    (h : ∀ i b, bs[i]? = some b → k.peek (addr + BitVec.ofNat 32 (j + i)) = some b) :
    ∃ k', Reading random merged addr j n k bs k' := by
  induction bs generalizing j n k with
  | nil => exact ⟨k, .nil⟩
  | cons b bs ih =>
    have hfirst := h 0 b rfl
    obtain ⟨x, hx⟩ := peek_isSome_iff.mp (by rw [hfirst]; rfl)
    obtain ⟨k1, hval, hbrowse⟩ := readMem_of_mapped hx (random n) merged
    rw [hx.peek_eq] at hfirst
    rw [Option.some.inj hfirst] at hval
    obtain ⟨k', hrest⟩ := @ih k1 (j + 1) (n + 1) (fun i b hb => by
      rw [hbrowse.peek, show j + 1 + i = j + (i + 1) by omega]
      exact h (i + 1) b hb)
    exact ⟨k', .next hval hrest⟩

/-! ## The copy loop -/

/-- With `ch` filled so far and byte `b` read, the loop ends as `r` says. -/
def Stops (ch : List UInt8) (b : UInt8) (k : Kernel) : CopyLoop → Prop
  | .string ch' k' => ch.length < 500 ∧ b = 0 ∧ ch' = ch ∧ k' = k
  | .overrun k' => ¬ ch.length < 500 ∧ k' = k
  | _ => False

theorem copyLoop_reading {r : CopyLoop}
    (hr : (∃ ch' k', r = .string ch' k') ∨ ∃ k', r = .overrun k')
    (hroom : ch.length ≤ 500) (h : copyLoop random merged addr fuel n k ch = .ok r) :
    ∃ bs b k', 0 ∉ bs ∧ ch.length + bs.length ≤ 500 ∧
      Reading random merged addr ch.length n k (bs ++ [b]) k' ∧ Stops (ch ++ bs) b k' r := by
  induction fuel generalizing n k ch with
  | zero =>
    cases h
    rcases hr with ⟨_, _, hr⟩ | ⟨_, hr⟩ <;> cases hr
  | succ fuel ih =>
    rw [copyLoop] at h
    obtain ⟨res, hres, h⟩ := bind_eq_ok.mp h
    cases res with
    | value i k1 =>
      dsimp only at h
      split at h
      · rename_i hlt
        split at h
        · rename_i hnul
          cases h
          refine ⟨[], i, k1, List.not_mem_nil, hroom, .next hres .nil, ?_⟩
          rw [List.append_nil]
          exact ⟨hlt, hnul, rfl, rfl⟩
        · rename_i hi
          have hlen : (ch ++ [i]).length = ch.length + 1 := List.length_append
          obtain ⟨bs, b, k', hnul, hle, hread, hstop⟩ := ih (by omega) h
          rw [hlen] at hread hle
          rw [List.append_assoc] at hstop
          refine ⟨i :: bs, b, k', ?_, ?_, .next hres hread, hstop⟩
          · exact fun hm => (List.mem_cons.mp hm).elim (fun he => hi he.symm) hnul
          · rw [List.length_cons]
            omega
      · rename_i hlt
        cases h
        refine ⟨[], i, k1, List.not_mem_nil, hroom, .next hres .nil, ?_⟩
        rw [List.append_nil]
        exact ⟨hlt, rfl⟩
    | failed k1 =>
      obtain ⟨bs, b, k', hnul, hle, hread, hstop⟩ := ih hroom h
      exact ⟨bs, b, k', hnul, hle, .retry (by simp) hres hread, hstop⟩
    | killed k1 =>
      cases h
      rcases hr with ⟨_, _, hr⟩ | ⟨_, hr⟩ <;> cases hr

theorem Reading.copyLoop {r : CopyLoop}
    (h : Reading random merged addr ch.length n k (bs ++ [b]) k') (hnul : 0 ∉ bs)
    (hroom : ch.length + bs.length ≤ 500) (hstop : Stops (ch ++ bs) b k' r) :
    ∃ fuel, copyLoop random merged addr fuel n k ch = .ok r := by
  generalize hj : ch.length = j at h
  generalize hl : bs ++ [b] = l at h
  induction h generalizing ch bs with
  | nil => exact absurd hl (by simp)
  | retry _ h _ ih =>
    obtain ⟨fuel, hfuel⟩ := ih hnul hroom hstop hj hl
    refine ⟨fuel + 1, ?_⟩
    rw [Kernel.copyLoop, hj, h, ok_bind]
    exact hfuel
  | @next j n k k1 k' i l h hrest ih =>
    cases bs with
    | nil =>
      -- the byte the loop ends with
      cases hl
      obtain rfl := reading_nil hrest
      refine ⟨1, ?_⟩
      rw [Kernel.copyLoop, hj, h, ok_bind]
      rw [List.append_nil] at hstop
      dsimp only
      cases r with
      | string ch' k2 =>
        obtain ⟨hlt, hb, rfl, rfl⟩ := hstop
        rw [if_pos (hj ▸ hlt), if_pos hb]
      | overrun k2 =>
        obtain ⟨hlt, rfl⟩ := hstop
        rw [if_neg (hj ▸ hlt)]
      | killed k2 => exact hstop.elim
      | busy k2 => exact hstop.elim
    | cons i' bs =>
      cases hl
      rw [List.length_cons] at hroom
      have hlen : (ch ++ [i]).length = ch.length + 1 := List.length_append
      obtain ⟨fuel, hfuel⟩ := @ih bs (ch ++ [i]) (fun hm => hnul (List.mem_cons_of_mem i hm))
        (by omega) (by rw [List.append_assoc]; exact hstop) (by omega) rfl
      refine ⟨fuel + 1, ?_⟩
      rw [Kernel.copyLoop, hj, h, ok_bind]
      dsimp only
      rw [if_pos (by omega), if_neg (fun he : i = 0 => hnul (he ▸ List.mem_cons_self))]
      exact hfuel

/-- Some run of the machine from `k` gets to where the loop is left. -/
def LoopRun (k : Kernel) : CopyLoop → Prop
  | .string _ k' | .overrun k' | .busy k' => GoesOn k k'
  | .killed k' => ∃ n, Leads k k' n

theorem LoopRun.after {r : CopyLoop} (h : GoesOn k k1) (h' : LoopRun k1 r) : LoopRun k r := by
  cases r with
  | string ch k' => exact GoesOn.trans h h'
  | overrun k' => exact GoesOn.trans h h'
  | killed k' =>
    obtain ⟨⟨es, hrun⟩, -⟩ := h
    obtain ⟨n, hleads⟩ := h'
    exact ⟨n, hleads.after hrun⟩
  | busy k' => exact GoesOn.trans h h'

theorem copyLoop_run {r : CopyLoop} (hc : k.here = .call)
    (h : copyLoop random merged addr fuel n k ch = .ok r) : LoopRun k r := by
  induction fuel generalizing n k ch with
  | zero =>
    cases h
    exact ⟨⟨[], .nil⟩, hc⟩
  | succ fuel ih =>
    rw [copyLoop] at h
    obtain ⟨res, hres, h⟩ := bind_eq_ok.mp h
    have hread := readMem_run hc hres
    cases res with
    | value i k1 =>
      dsimp only at h
      split at h
      · split at h
        · cases h
          exact hread
        · exact LoopRun.after hread (ih hread.2 h)
      · cases h
        exact hread
    | failed k1 => exact LoopRun.after hread (ih hread.2 h)
    | killed k1 =>
      cases h
      exact hread

/-! ## The call -/

theorem sWrite_eq_file {id : Int} (hid : 2 ≤ id) : sWrite ch id = .file id bs ↔ ch = bs := by
  unfold sWrite
  rw [if_neg (by omega), if_pos hid]
  simp

/-- What a call for a file passes on. -/
theorem writeCall_file_iff (hid : 2 ≤ (k.registers 6).toInt) :
    (∃ fuel k', k.writeCall random merged fuel =
        .ok (.returned (.file (k.registers 6).toInt bs) k')) ↔
      bs ≠ [] ∧ bs.length < 500 ∧ 0 ∉ bs ∧
        k.Fetches random merged (k.registers 4) (bs ++ [0]) := by
  constructor
  · intro ⟨fuel, k', h⟩
    obtain ⟨r, hloop, h⟩ := bind_eq_ok.mp h
    cases r with
    | string ch k1 =>
      obtain ⟨hout, -⟩ := WriteEnd.returned.inj (Except.ok.inj h)
      split at hout
      · cases hout
      · rename_i hne
        obtain rfl := (sWrite_eq_file hid).mp hout
        obtain ⟨bs, b, k2, hnul, -, hread, hlt, rfl, hch, -⟩ :=
          copyLoop_reading (.inl ⟨ch, k1, rfl⟩) (Nat.zero_le _) hloop
        rw [List.nil_append] at hch hlt
        rw [hch] at hne ⊢
        exact ⟨hne, hlt, hnul, k2, hread⟩
    | overrun k1 => cases h
    | killed k1 => cases h
    | busy k1 => cases h
  · intro ⟨hne, hlt, hnul, k', hread⟩
    obtain ⟨fuel, hloop⟩ := @Reading.copyLoop k k' (k.registers 4) random merged 0 bs [] 0
      (.string bs k') hread hnul (by rw [List.length_nil]; omega) ⟨hlt, rfl, rfl, rfl⟩
    refine ⟨fuel, k'.goTo .user, ?_⟩
    unfold writeCall
    rw [hloop, ok_bind]
    dsimp only
    rw [if_neg hne, (sWrite_eq_file hid).mpr rfl]

/-- The call is a run of the machine that ends with it. -/
theorem writeCall_run {r : WriteEnd} (hc : k.here = .call)
    (h : k.writeCall random merged fuel = .ok r) :
    match r with
    | .returned _ k' => Leads k k' .stay
    | .overrun k' => GoesOn k k'
    | .killed k' => ∃ n, Leads k k' n
    | .busy k' => GoesOn k k' := by
  obtain ⟨res, hloop, h⟩ := bind_eq_ok.mp h
  have hrun := copyLoop_run hc hloop
  cases res with
  | string ch k1 =>
    cases h
    obtain ⟨⟨es, hrun⟩, hc1⟩ := hrun
    exact ⟨es, k1, .ret none, hrun, ite_error_eq_ok.mpr ⟨hc1, rfl⟩⟩
  | overrun k1 =>
    cases h
    exact hrun
  | killed k1 =>
    cases h
    exact hrun
  | busy k1 =>
    cases h
    exact hrun

theorem writesExactly_iff {size : Nat} (hsize : (k.registers 5).toInt = size) (hpos : 0 < size)
    (hlt : size < 500) (hid : 2 ≤ (k.registers 6).toInt) :
    k.WritesExactly random merged ↔ ∃ bs : List UInt8, bs.length = size ∧
      k.UserBytes (k.registers 4) bs ∧ 0 ∉ bs ∧
        k.Fetches random merged (k.registers 4) (bs ++ [0]) := by
  unfold WritesExactly
  rw [hsize]
  constructor
  · rintro ⟨bs, hlen, huser, hcall⟩
    obtain ⟨-, -, hnul, hfetch⟩ := (writeCall_file_iff hid).mp hcall
    exact ⟨bs, Int.ofNat.inj hlen, huser, hnul, hfetch⟩
  · rintro ⟨bs, hlen, huser, hnul, hfetch⟩
    have hne : bs ≠ [] := List.ne_nil_of_length_pos (by omega)
    exact ⟨bs, congrArg Int.ofNat hlen, huser,
      (writeCall_file_iff hid).mpr ⟨hne, by omega, hnul, hfetch⟩⟩

/-- If the bytes up to the one behind the buffer are in memory, NULs decide. -/
theorem writesExactly_iff_peek {size : Nat} (hsize : (k.registers 5).toInt = size)
    (hpos : 0 < size) (hlt : size < 500) (hid : 2 ≤ (k.registers 6).toInt)
    (hin : ∀ i ≤ size, (k.peek (k.registers 4 + BitVec.ofNat 32 i)).isSome) :
    k.WritesExactly random merged ↔
      (∀ i < size, k.peek (k.registers 4 + BitVec.ofNat 32 i) ≠ some 0) ∧
        k.peek (k.registers 4 + BitVec.ofNat 32 size) = some 0 := by
  rw [writesExactly_iff hsize hpos hlt hid]
  constructor
  · intro ⟨bs, hlen, _, hnul, k', hread⟩
    -- the bytes that are read are those in memory
    have hpeek (i : Nat) (b : UInt8) (hb : (bs ++ [0])[i]? = some b) :
        k.peek (k.registers 4 + BitVec.ofNat 32 i) = some b := by
      have hall := hread.peek_eq (fun i hi => by
        rw [List.length_append, List.length_singleton, hlen] at hi
        rw [Nat.zero_add]
        exact hin i (Nat.le_of_lt_succ hi)) i b hb
      rwa [Nat.zero_add] at hall
    constructor
    · intro i hi h0
      have hb : bs[i]? = some bs[i] := List.getElem?_eq_getElem (by omega)
      have h0' := hpeek i bs[i] (by rw [List.getElem?_append_left (by omega), hb])
      rw [h0] at h0'
      exact hnul (List.mem_of_getElem? (hb.trans h0'.symm))
    · exact hpeek size 0 (by rw [← hlen, List.getElem?_concat_length])
  · intro ⟨hnonzero, hend⟩
    have hget (i : Nat) (hi : i ≤ size) : k.peek (k.registers 4 + BitVec.ofNat 32 i) =
        some ((k.peek (k.registers 4 + BitVec.ofNat 32 i)).getD 0) :=
      (Option.some_get (hin i hi)).symm.trans (congrArg some (Option.get_eq_getD _))
    -- the bytes of the buffer, as they stand in memory
    let bs := (List.range size).map fun i => (k.peek (k.registers 4 + BitVec.ofNat 32 i)).getD 0
    have hlen : bs.length = size := by simp [bs]
    have hbs (i : Nat) (b : UInt8) (hb : bs[i]? = some b) :
        i < size ∧ k.peek (k.registers 4 + BitVec.ofNat 32 i) = some b := by
      have hi : i < size := by
        have := (List.getElem?_eq_some_iff.mp hb).1
        omega
      refine ⟨hi, (hget i (Nat.le_of_lt hi)).trans ?_⟩
      rw [← hb]
      simp [bs, hi]
    refine ⟨bs, hlen, fun i b hb => userByte_of_peek (hbs i b hb).2, fun hmem => ?_, ?_⟩
    · obtain ⟨i, hi⟩ := List.getElem?_of_mem hmem
      obtain ⟨hlt, hpeek⟩ := hbs i 0 hi
      exact hnonzero i hlt hpeek
    · refine reading_of_peek 0 fun i b hb => ?_
      rw [Nat.zero_add]
      rcases Nat.lt_or_ge i size with hi | hi
      · rw [List.getElem?_append_left (by omega)] at hb
        exact (hbs i b hb).2
      · have hle := (List.getElem?_eq_some_iff.mp hb).1
        rw [List.length_append, List.length_singleton, hlen] at hle
        obtain rfl : i = size := by omega
        rw [← hlen, List.getElem?_concat_length] at hb
        rw [hend, hb]

/-- `SC_Write` outputs the bytes of the buffer exactly if none of them is a NUL,
a NUL follows them, and paging serves the reading of all these bytes. If they
are all in memory, the NULs alone decide. -/
theorem write_exact_iff {size : Nat} (hsize : (k.registers 5).toInt = size) (hpos : 0 < size)
    (hlt : size < 500) (hid : 2 ≤ (k.registers 6).toInt) :
    (k.WritesExactly random merged ↔ ∃ bs : List UInt8, bs.length = size ∧
      k.UserBytes (k.registers 4) bs ∧ 0 ∉ bs ∧
        k.Fetches random merged (k.registers 4) (bs ++ [0])) ∧
    ((∀ i ≤ size, (k.peek (k.registers 4 + BitVec.ofNat 32 i)).isSome) →
      (k.WritesExactly random merged ↔
        (∀ i < size, k.peek (k.registers 4 + BitVec.ofNat 32 i) ≠ some 0) ∧
          k.peek (k.registers 4 + BitVec.ofNat 32 size) = some 0)) :=
  ⟨writesExactly_iff hsize hpos hlt hid, writesExactly_iff_peek hsize hpos hlt hid⟩

/-- The program calls `Write(addr, size, 2)`. -/
def writeSample (addr size : BitVec 32) : List Event :=
  [.instr [] (Registers.write (Registers.write (Registers.write (Registers.write (fun _ => 0)
    2 scWrite) 4 addr) 5 size) 6 2), .trap]

/-- The call returns with the output `output`. -/
def outputs (k : Kernel) (output : Output) : Bool :=
  match k.writeCall (fun _ => 0) false 100 with
  | .ok (.returned output' _) => output' = output
  | _ => false

/-- The program reaches its call with page 3 in memory, `bs` and a NUL in its
buffer, and the call passes on `out`. -/
def writeDemo (addr size : BitVec 32) (bs out : List UInt8) : Bool :=
  (Config.sample 2).reaches (.fault 768 0 :: writeSample addr size) fun k =>
    decide (k.registers 5 = size ∧ k.registers 6 = 2) && k.peeks (k.registers 4) bs &&
      k.outputs (.file 2 out)

theorem writeDemo_sound {size : BitVec 32} {out : List UInt8}
    (h : writeDemo addr size bs out = true) :
    ∃ k0 k k', boot (.sample 2) = .ok k0 ∧
      Run step k0 (.fault 768 0 :: writeSample addr size) k ∧ k.registers 5 = size ∧
      k.registers 6 = 2 ∧ k.peeks (k.registers 4) bs = true ∧
      k.writeCall (fun _ => 0) false 100 = .ok (.returned (.file 2 out) k') := by
  obtain ⟨k0, k, hboot, hrun, hp⟩ := Config.reaches_iff.mp h
  obtain ⟨hp, hout⟩ := Bool.and_eq_true_iff.mp hp
  obtain ⟨hargs, hpeeks⟩ := Bool.and_eq_true_iff.mp hp
  obtain ⟨hsize, hid⟩ := of_decide_eq_true hargs
  unfold outputs at hout
  split at hout
  · rename_i output' k' hcall
    rw [of_decide_eq_true hout] at hcall
    exact ⟨k0, k, k', hboot, hrun, hsize, hid, hpeeks, hcall⟩
  · cases hout

/-- The last four bytes of the data are followed by a NUL. -/
theorem write_exact_last_four : ∃ k0 k, boot (.sample 2) = .ok k0 ∧
    Run step k0 (.fault 768 0 :: writeSample 808 4) k ∧
    k.WritesExactly (fun _ => 0) false := by
  have hdemo : writeDemo 808 4 [7, 7, 7, 7] [7, 7, 7, 7] = true := by decide +kernel
  obtain ⟨k0, k, -, hboot, hrun, hsize, hid, hpeeks, -⟩ := writeDemo_sound hdemo
  have hpeek := peeks_iff.mp hpeeks
  have hiff := @write_exact_iff k (fun _ => 0) false 4 (by rw [hsize]; decide) (by decide)
    (by decide) (by rw [hid]; decide)
  refine ⟨k0, k, hboot, hrun, (hiff.2 fun i hi => ?_).mpr ⟨fun i hi => ?_, hpeek 4 (by decide)⟩⟩
  · rw [hpeek i hi]
    rfl
  · rw [hpeek i (Nat.le_of_lt hi)]
    intro h
    have hbyte : ∀ i < 4, [7, 7, 7, 7].getD i (0 : UInt8) ≠ 0 := by decide
    exact hbyte i hi (Option.some.inj h)

/-- Two of those bytes, which no NUL ends, are passed on with the two behind
them. Of two bytes and two NULs behind them, the NULs are not passed on. -/
theorem write_not_exact :
    (∃ k0 k k', boot (.sample 2) = .ok k0 ∧ Run step k0 (.fault 768 0 :: writeSample 808 2) k ∧
      k.UserBytes (k.registers 4) [7, 7] ∧ k.registers 5 = 2 ∧ k.registers 6 = 2 ∧
      k.writeCall (fun _ => 0) false 100 = .ok (.returned (.file 2 [7, 7, 7, 7]) k') ∧
      ¬ k.WritesExactly (fun _ => 0) false) ∧
    ∃ k0 k k', boot (.sample 2) = .ok k0 ∧ Run step k0 (.fault 768 0 :: writeSample 810 4) k ∧
      k.UserBytes (k.registers 4) [7, 7, 0, 0] ∧ k.registers 5 = 4 ∧ k.registers 6 = 2 ∧
      k.writeCall (fun _ => 0) false 100 = .ok (.returned (.file 2 [7, 7]) k') ∧
      ¬ k.WritesExactly (fun _ => 0) false := by
  constructor
  · have hdemo : writeDemo 808 2 [7, 7, 7, 7] [7, 7, 7, 7] = true := by decide +kernel
    obtain ⟨k0, k, k', hboot, hrun, hsize, hid, hpeeks, hcall⟩ := writeDemo_sound hdemo
    have hpeek := peeks_iff.mp hpeeks
    refine ⟨k0, k, k', hboot, hrun, userBytes_of_peeks hpeeks 2, hsize, hid, hcall, fun h => ?_⟩
    have hiff := @writesExactly_iff_peek k (fun _ => 0) false 2 (by rw [hsize]; decide) (by decide)
      (by decide) (by rw [hid]; decide)
      (fun i hi => by rw [hpeek i (Nat.le_trans hi (by decide))]; rfl)
    exact absurd ((hpeek 2 (by decide)).symm.trans (hiff.mp h).2) (by decide)
  · have hdemo : writeDemo 810 4 [7, 7, 0, 0] [7, 7] = true := by decide +kernel
    obtain ⟨k0, k, k', hboot, hrun, hsize, hid, hpeeks, hcall⟩ := writeDemo_sound hdemo
    have hpeek := peeks_iff.mp hpeeks
    refine ⟨k0, k, k', hboot, hrun, userBytes_of_peeks hpeeks 4, hsize, hid, hcall, fun h => ?_⟩
    have hiff := @writesExactly_iff_peek k (fun _ => 0) false 4 (by rw [hsize]; decide) (by decide)
      (by decide) (by rw [hid]; decide) (fun i hi => by rw [hpeek i hi]; rfl)
    exact (hiff.mp h).1 2 (by decide) (hpeek 2 (by decide))

end Kernel
end Nachos

import Nachos.Userprog.Stores
import Nachos.Lib.Strings

/-! `SC_Read` (exception.cc): `SRead`, with its two sources. From the keyboard a
word is taken into a buffer of `size + 10` bytes and stored byte by byte up to
its NUL; from a file, bytes are stored as they are read, up to a NUL. The result
of `WriteMem` is not looked at: a byte whose page is not in memory is lost. -/

namespace Nachos
open Lib

abbrev scRead : BitVec 32 := 6

/-- `isspace` in the C locale. -/
def isSpace (b : UInt8) : Bool := b == 32 || 9 ≤ b && b ≤ 13

/-- What `%s` matches. -/
structure Word where
  bytes : List UInt8
  nonempty : bytes ≠ []
  solid : ∀ b ∈ bytes, isSpace b = false

/-- A byte of a word before its first NUL. -/
def Typed (b : UInt8) : Prop := b ≠ 0 ∧ isSpace b = false

/-- What `SRead` comes to: the number it returns, with the user addresses it
has stored at; an index outside its buffer; or the end of the thread. -/
inductive ReadEnd
  | returned (num : Nat) (stored : List (BitVec 32)) (k : Kernel)
  | overrun (k : Kernel)
  | killed (k : Kernel)

/-- The length of `buffer`. If `size + 10` is not an `int` there is no buffer. -/
def bufferLength (size : Int) : Nat := if IsInt (size + 10) then (size + 10).toNat else 0

/-- `buffer` after `scanf("%s", buffer)`; what it held is `left`. At the end of
the input nothing is stored. -/
def scanf (length : Nat) (left : Nat → UInt8) : Option Word → Option (Nat → UInt8)
  | none => some left
  | some word =>
    if word.bytes.length < length then some (overlay left 0 (word.bytes ++ [0])) else none

namespace Kernel

/-- The two loops of `SRead`, from `num` on: `rounds` is what is left of the
loop's bound, and `source num` what stands in `buffer[num]`. `Read` of a file
that is at its end fails its assertion. -/
def deliver (random : Nat → Nat) (merged : Bool) (addr : BitVec 32) (length : Nat)
    (source : Nat → Option UInt8) (rounds num : Nat) (k : Kernel) (stored : List (BitVec 32)) :
    Except Fault ReadEnd :=
  match rounds with
  | 0 => .ok (.returned num stored k)
  | rounds + 1 =>
    if num < length then
      match source num with
      | none => .error (.assertion .read)
      | some b => do
        match ← k.writeMem (addr + BitVec.ofNat 32 num) b (random num) merged with
        | .stored k =>
          if b = 0 then .ok (.returned num (stored ++ [addr + BitVec.ofNat 32 num]) k)
          else
            deliver random merged addr length source rounds (num + 1) k
              (stored ++ [addr + BitVec.ofNat 32 num])
        | .failed k =>
          if b = 0 then .ok (.returned num stored k)
          else deliver random merged addr length source rounds (num + 1) k stored
        | .killed k => .ok (.killed k)
    else .ok (.overrun k)

/-- `SRead` from the keyboard. -/
def readKeyboard (k : Kernel) (random : Nat → Nat) (merged : Bool) (addr : BitVec 32) (size : Int)
    (word : Option Word) (left : Nat → UInt8) : Except Fault ReadEnd :=
  match scanf (bufferLength size) left word with
  | none => .ok (.overrun k)
  | some buffer =>
    match findNul (bufferLength size) buffer with
    | none => .ok (.overrun k)
    | some num =>
      -- both branches put a NUL at the index `Result`
      let result : Int := if num > size + 1 then size + 1 else num + 1
      if 0 ≤ result ∧ result < bufferLength size then
        deliver random merged addr (bufferLength size)
          (fun i => some (Function.update buffer result.toNat 0 i)) result.toNat 0 k []
      else .ok (.overrun k)

/-- `SRead` from a file that still has the bytes `file`. -/
def readFile (k : Kernel) (random : Nat → Nat) (merged : Bool) (addr : BitVec 32) (size : Int)
    (file : List UInt8) : Except Fault ReadEnd :=
  deliver random merged addr (bufferLength size) (file[·]?) size.toNat 0 k []

/-- `SRead(addr, size, id)`. -/
def sRead (k : Kernel) (random : Nat → Nat) (merged : Bool) (addr : BitVec 32) (size id : Int)
    (word : Option Word) (left : Nat → UInt8) (file : List UInt8) : Except Fault ReadEnd :=
  if id = 0 then k.readKeyboard random merged addr size word left
  else k.readFile random merged addr size file

/-- `SC_Read` behind the trap. -/
def readCall (k : Kernel) (random : Nat → Nat) (merged : Bool) (word : Option Word)
    (left : Nat → UInt8) (file : List UInt8) : Except Fault ReadEnd := do
  match ← k.sRead random merged (k.registers 4) (k.registers 5).toInt (k.registers 6).toInt word
      left file with
  | .returned num stored k1 =>
    .ok (.returned num stored ((k1.writeRegister 2 (BitVec.ofNat 32 num)).goTo .user))
  | .overrun k1 => .ok (.overrun k1)
  | .killed k1 => .ok (.killed k1)

/-- What the caller is promised, for the input `input`: no more bytes than there
is room for, those of the input, and nothing stored outside the buffer. -/
def Delivered (addr : BitVec 32) (size : Int) (input : List UInt8) :
    Except Fault ReadEnd → Prop
  | .ok (.returned num stored k') => num ≤ size ∧ num ≤ input.length ∧
      k'.UserBytes addr (input.take num) ∧
      ∀ a ∈ stored, ∃ i : Nat, i < size ∧ a = addr + BitVec.ofNat 32 i
  | _ => False

variable {k k' k1 : Kernel} {addr : BitVec 32} {random : Nat → Nat} {merged : Bool}
  {num : Nat} {bs cs : List UInt8} {b : UInt8} {st st' : List (BitVec 32)}

/-! ## The loops -/

variable {length rounds n : Nat} {source : Nat → Option UInt8}

theorem deliver_step (hlt : num < length) (hb : source num = some b) :
    deliver random merged addr length source (rounds + 1) num k st = .ok (.returned n st' k') ↔
      ∃ st1 k1, Writing random addr num k [b] st1 k1 ∧
        (if b = 0 then .ok (.returned num (st ++ st1) k1)
          else deliver random merged addr length source rounds (num + 1) k1 (st ++ st1)) =
            .ok (.returned n st' k') := by
  rw [deliver, if_pos hlt, hb]
  dsimp only
  constructor
  · intro h
    obtain ⟨r, hwrite, h⟩ := bind_eq_ok.mp h
    rcases writeMem_cases hwrite with ⟨k1, hstore, rfl⟩ | ⟨k1, fault, hin, rfl⟩ | ⟨r', -, rfl⟩
    · exact ⟨_, k1, writing_singleton.mpr (.inl ⟨hstore, rfl⟩), h⟩
    · exact ⟨[], k1, writing_singleton.mpr (.inr ⟨fault, hin, rfl⟩), by rwa [List.append_nil]⟩
    · cases h
  · intro ⟨st1, k1, hwrite, h⟩
    rcases writing_singleton.mp hwrite with ⟨hstore, rfl⟩ | ⟨fault, hin, rfl⟩
    · exact bind_eq_ok.mpr ⟨_, writeMem_of_store hstore (random num) merged, h⟩
    · rw [List.append_nil] at h
      exact bind_eq_ok.mpr ⟨_, writeMem_of_faults fault hin b merged, h⟩

theorem deliver_bytes (hnul : 0 ∉ bs) (hlen : num + bs.length ≤ length)
    (hsource : ∀ i b, bs[i]? = some b → source (num + i) = some b) :
    deliver random merged addr length source (bs.length + rounds) num k st =
        .ok (.returned n st' k') ↔
      ∃ st1 k1, Writing random addr num k bs st1 k1 ∧
        deliver random merged addr length source rounds (num + bs.length) k1 (st ++ st1) =
          .ok (.returned n st' k') := by
  induction bs generalizing num k st with
  | nil =>
    rw [List.length_nil, Nat.zero_add, Nat.add_zero]
    constructor
    · intro h
      exact ⟨[], k, .nil, by rwa [List.append_nil]⟩
    · intro ⟨st1, k1, hwrite, h⟩
      cases hwrite
      rwa [List.append_nil] at h
  | cons b bs ih =>
    rw [List.length_cons] at hlen ⊢
    have hb : b ≠ 0 := fun h => hnul (h ▸ List.mem_cons_self)
    have ih' {k1 : Kernel} {st1 : List (BitVec 32)} := @ih k1 (num + 1) st1
      (fun h => hnul (List.mem_cons_of_mem b h)) (by omega)
      (fun i c hc => by
        rw [show num + 1 + i = num + (i + 1) by omega]
        exact hsource (i + 1) c hc)
    have hstep := @deliver_step k k' addr random merged num b st st' length (bs.length + rounds) n
      source (by omega) (hsource 0 b rfl)
    simp only [if_neg hb] at hstep
    rw [Nat.add_right_comm, hstep, show num + (bs.length + 1) = num + 1 + bs.length by omega]
    constructor
    · intro ⟨st1, k1, hfirst, h⟩
      obtain ⟨st2, k2, hrest, h⟩ := ih'.mp h
      refine ⟨st1 ++ st2, k2, writing_cons.mpr ⟨st1, k1, st2, hfirst, hrest, rfl⟩, ?_⟩
      rwa [← List.append_assoc]
    · intro ⟨st1, k1, hwrite, h⟩
      obtain ⟨st2, k2, st3, hfirst, hrest, rfl⟩ := writing_cons.mp hwrite
      rw [← List.append_assoc] at h
      exact ⟨st2, k2, hfirst, ih'.mpr ⟨st3, k1, hrest, h⟩⟩

/-- A string is stored with its NUL, and its length is the result. -/
theorem deliver_string (hnul : 0 ∉ bs) (hlen : bs.length < length)
    (hsource : ∀ i b, (bs ++ [0])[i]? = some b → source i = some b) :
    deliver random merged addr length source (bs.length + (rounds + 1)) 0 k [] =
        .ok (.returned n st k') ↔
      n = bs.length ∧ Writing random addr 0 k (bs ++ [0]) st k' := by
  rw [deliver_bytes hnul (by omega) fun i b hb => by
    rw [Nat.zero_add]
    refine hsource i b ?_
    rw [List.getElem?_append_left (List.getElem?_eq_some_iff.mp hb).1, hb]]
  have hend : source (0 + bs.length) = some 0 := by
    rw [Nat.zero_add]
    exact hsource _ 0 List.getElem?_concat_length
  constructor
  · intro ⟨st1, k1, hwrite, h⟩
    obtain ⟨st2, k2, hlast, h⟩ := (deliver_step (by omega) hend).mp h
    rw [if_pos rfl] at h
    cases h
    exact ⟨Nat.zero_add _, hwrite.append hlast⟩
  · intro ⟨hn, hwrite⟩
    obtain ⟨st1, k1, st2, hbytes, hlast, rfl⟩ := hwrite.of_append
    refine ⟨st1, k1, hbytes, (deliver_step (by omega) hend).mpr ⟨st2, k', hlast, ?_⟩⟩
    rw [if_pos rfl, hn, Nat.zero_add]
    rfl

/-- Some run of the machine from `k` gets to where `SRead` ends. -/
def ReadRun (k : Kernel) : ReadEnd → Prop
  | .returned _ _ k' | .overrun k' => GoesOn k k'
  | .killed k' => ∃ n, Leads k k' n

theorem ReadRun.after {r : ReadEnd} (h : GoesOn k k1) (h' : ReadRun k1 r) : ReadRun k r := by
  cases r with
  | returned num st k' => exact GoesOn.trans h h'
  | overrun k' => exact GoesOn.trans h h'
  | killed k' =>
    obtain ⟨⟨es, hrun⟩, -⟩ := h
    obtain ⟨n, hleads⟩ := h'
    exact ⟨n, hleads.after hrun⟩

theorem deliver_run {r : ReadEnd} (hc : k.here = .call)
    (h : deliver random merged addr length source rounds num k st = .ok r) : ReadRun k r := by
  have hhere : GoesOn k k := ⟨⟨[], .nil⟩, hc⟩
  induction rounds generalizing num k st with
  | zero =>
    cases h
    exact hhere
  | succ rounds ih =>
    rw [deliver] at h
    split at h
    · split at h
      · cases h
      · obtain ⟨res, hwrite, h⟩ := bind_eq_ok.mp h
        have hrun := writeMem_run hc hwrite
        cases res with
        | stored k1 =>
          dsimp only at h
          split at h
          · cases h
            exact hrun
          · exact ReadRun.after hrun (ih hrun.2 h ⟨⟨[], .nil⟩, hrun.2⟩)
        | failed k1 =>
          dsimp only at h
          split at h
          · cases h
            exact hrun
          · exact ReadRun.after hrun (ih hrun.2 h ⟨⟨[], .nil⟩, hrun.2⟩)
        | killed k1 =>
          cases h
          exact hrun
    · cases h
      exact hhere

theorem sRead_run {size id : Int} {word : Option Word} {left : Nat → UInt8} {file : List UInt8}
    {r : ReadEnd} (hc : k.here = .call)
    (h : k.sRead random merged addr size id word left file = .ok r) : ReadRun k r := by
  have hhere : GoesOn k k := ⟨⟨[], .nil⟩, hc⟩
  unfold sRead at h
  split at h
  · unfold readKeyboard at h
    split at h
    · cases h
      exact hhere
    · split at h
      · cases h
        exact hhere
      · dsimp only at h
        split at h
        all_goals
          split at h
          · exact deliver_run hc h
          · cases h
            exact hhere
  · exact deliver_run hc h

/-- The call is a run of the machine that ends with it. -/
theorem readCall_run {word : Option Word} {left : Nat → UInt8} {file : List UInt8} {r : ReadEnd}
    (hc : k.here = .call) (h : k.readCall random merged word left file = .ok r) :
    match r with
    | .returned _ _ k' => Leads k k' .stay
    | .overrun k' => GoesOn k k'
    | .killed k' => ∃ n, Leads k k' n := by
  obtain ⟨res, hread, h⟩ := bind_eq_ok.mp h
  have hrun := sRead_run hc hread
  cases res with
  | returned num st k1 =>
    cases h
    obtain ⟨⟨es, hrun⟩, hc1⟩ := hrun
    exact ⟨es, k1, .ret (some (BitVec.ofNat 32 num)), hrun, ite_error_eq_ok.mpr ⟨hc1, rfl⟩⟩
  | overrun k1 =>
    cases h
    exact hrun
  | killed k1 =>
    cases h
    exact hrun

/-! ## The keyboard -/

theorem lt_bufferLength {size : Int} {i : Nat} :
    i < bufferLength size ↔ IsInt (size + 10) ∧ i < size + 10 := by
  unfold bufferLength
  split
  · rename_i h
    constructor
    · intro hi
      exact ⟨h, by omega⟩
    · intro ⟨_, hi⟩
      omega
  · rename_i h
    exact ⟨fun hi => absurd hi (Nat.not_lt_zero i), fun hi => absurd hi.1 h⟩

theorem bufferLength_eq {size : Int} {i : Nat} (h : i < bufferLength size) :
    (bufferLength size : Int) = size + 10 := by
  obtain ⟨hint, hi⟩ := lt_bufferLength.mp h
  unfold bufferLength
  rw [if_pos hint]
  omega

theorem readKeyboard_eq {size : Int} {word : Option Word} {left buffer : Nat → UInt8} {z : Nat}
    (hscan : scanf (bufferLength size) left word = some buffer)
    (hnul : findNul (bufferLength size) buffer = some z) :
    k.readKeyboard random merged addr size word left =
      let result : Int := if z > size + 1 then size + 1 else z + 1
      if 0 ≤ result ∧ result < bufferLength size then
        deliver random merged addr (bufferLength size)
          (fun i => some (Function.update buffer result.toNat 0 i)) result.toNat 0 k []
      else .ok (.overrun k) := by
  unfold readKeyboard
  rw [hscan]
  dsimp only
  rw [hnul]

theorem delivered_iff {size : Int} {input : List UInt8} {r : Except Fault ReadEnd} :
    Delivered addr size input r ↔ ∃ num st k', r = .ok (.returned num st k') ∧ num ≤ size ∧
      num ≤ input.length ∧ k'.UserBytes addr (input.take num) ∧
      ∀ a ∈ st, ∃ i : Nat, i < size ∧ a = addr + BitVec.ofNat 32 i := by
  constructor
  · intro h
    unfold Delivered at h
    split at h
    · rename_i num st k'
      exact ⟨num, st, k', rfl, h⟩
    · exact h.elim
  · intro ⟨num, st, k', hr, h⟩
    rw [hr]
    exact h

/-- A string of `z` bytes in the buffer arrives if it is not longer than the
user's buffer and is stored with its NUL. -/
theorem readKeyboard_delivered_iff {size : Int} {input : List UInt8} {word : Option Word}
    {left buffer : Nat → UInt8} {z : Nat} (hpos : 0 < size)
    (hscan : scanf (bufferLength size) left word = some buffer)
    (hnul : findNul (bufferLength size) buffer = some z)
    (hinput : z ≤ input.length → input.take z = (List.range z).map buffer) :
    Delivered addr size input (k.readKeyboard random merged addr size word left) ↔
      z ≤ input.length ∧ z ≤ size ∧ k.Arrives random addr size ((List.range z).map buffer) := by
  obtain ⟨hz, h0, hne⟩ := findNul_eq_some.mp hnul
  obtain ⟨-, hz'⟩ := lt_bufferLength.mp hz
  have hlength := bufferLength_eq hz
  have hlen (z : Nat) : ((List.range z).map buffer).length = z := by simp
  rw [delivered_iff, readKeyboard_eq hscan hnul]
  dsimp only
  by_cases hlong : (z : Int) > size + 1
  · -- more bytes than there is room for are stored, none of them a NUL
    refine iff_of_false ?_ fun h => by omega
    intro ⟨n, st, k', hr, hle, _⟩
    rw [if_pos hlong, if_pos ⟨by omega, by omega⟩] at hr
    have hbytes := @deliver_bytes k k' addr random merged 0
      ((List.range (size + 1).toNat).map buffer) [] st (bufferLength size) 0 n
      (fun i => some (Function.update buffer (size + 1).toNat 0 i))
      (buffer_not_nul fun i hi => hne i (by omega)) (by rw [hlen]; omega)
      (fun i b hb => by
        obtain ⟨hi, rfl⟩ := buffer_getElem?.mp hb
        rw [Nat.zero_add, Function.update_of_ne (Nat.ne_of_lt hi)])
    rw [hlen] at hbytes
    obtain ⟨st1, k1, -, h⟩ := hbytes.mp hr
    cases h
    omega
  · rw [if_neg hlong, if_pos ⟨by omega, by omega⟩]
    have hstring {n : Nat} {st : List (BitVec 32)} {k' : Kernel} := @deliver_string k k' addr random
      merged ((List.range z).map buffer) st (bufferLength size) 0 n
      (fun i => some (Function.update buffer (z + 1) 0 i))
      (buffer_not_nul hne) (by rw [hlen]; exact hz)
      (fun i b hb => by
        -- the string and its NUL are the first `z + 1` bytes of the buffer
        have hnext : (List.range z).map buffer ++ [0] = (List.range (z + 1)).map buffer := by
          rw [List.range_succ, List.map_append, List.map_singleton, h0]
        rw [hnext] at hb
        obtain ⟨hi, rfl⟩ := buffer_getElem?.mp hb
        rw [Function.update_of_ne (Nat.ne_of_lt hi)])
    rw [hlen] at hstring
    rw [show ((z : Int) + 1).toNat = z + (0 + 1) by omega]
    constructor
    · intro ⟨n, st, k', hr, hle, hin, huser, hrange⟩
      obtain ⟨rfl, hwrite⟩ := hstring.mp hr
      rw [hinput hin] at huser
      exact ⟨hin, hle, st, k', hwrite, huser, hrange⟩
    · intro ⟨hin, hle, st, k', hwrite, huser, hrange⟩
      rw [← hinput hin] at huser
      exact ⟨z, st, k', hstring.mpr ⟨rfl, hwrite⟩, hle, hin, huser, hrange⟩

theorem forall_word_iff {P : List UInt8 → Prop} {len m : Nat} (hm : m ≤ len) (hpos : 0 < len) :
    (∀ word : Word, word.bytes.length = len → strlen word.bytes = m →
        P (beforeNul word.bytes)) ↔
      ∀ p : List UInt8, p.length = m → (∀ b ∈ p, Typed b) → P p := by
  constructor
  · intro h p hlen hty
    have hsolid : ∀ b ∈ padded p len, isSpace b = false := by
      intro b hb
      rcases List.mem_append.mp hb with hb | hb
      · exact (hty b hb).2
      · rw [List.eq_of_mem_replicate hb]
        rfl
    have hfull := length_padded (hlen ▸ hm)
    have hp := h ⟨padded p len, List.ne_nil_of_length_pos (by omega), hsolid⟩ hfull
    rw [strlen, beforeNul_padded fun b hb => (hty b hb).1] at hp
    exact hp hlen
  · intro h word _ hstr
    refine h _ hstr fun b hb => ⟨beforeNul_ne_zero hb, word.solid b ?_⟩
    exact (List.takeWhile_prefix _).subset hb

/-- What `scanf` leaves of a word that fits: a string in the buffer. -/
theorem scanf_word {word : Word} {left : Nat → UInt8} (h : word.bytes.length < length) :
    ∃ buffer, scanf length left (some word) = some buffer ∧
      findNul length buffer = some (strlen word.bytes) ∧
      (List.range (strlen word.bytes)).map buffer = beforeNul word.bytes := by
  obtain ⟨cs, hcs⟩ := append_nul word.bytes
  -- the buffer starts with the string and a NUL
  have hbuffer (i : Nat) (b : UInt8) (hb : (beforeNul word.bytes ++ 0 :: cs)[i]? = some b) :
      overlay left 0 (word.bytes ++ [0]) i = b := by
    rw [overlay, if_pos (Nat.zero_le i), hcs, Nat.sub_zero, hb]
    rfl
  have hstring (i : Nat) (hi : i < strlen word.bytes) :
      ∃ b, (beforeNul word.bytes)[i]? = some b ∧ overlay left 0 (word.bytes ++ [0]) i = b := by
    refine ⟨(beforeNul word.bytes)[i], List.getElem?_eq_getElem hi, hbuffer i _ ?_⟩
    rw [List.getElem?_append_left hi, List.getElem?_eq_getElem hi]
  refine ⟨_, if_pos h, findNul_eq_some.mpr ⟨?_, ?_, fun i hi => ?_⟩, ?_⟩
  · exact Nat.lt_of_le_of_lt (strlen_le _) h
  · refine hbuffer _ 0 ?_
    rw [strlen, List.getElem?_append_right (Nat.le_refl _), Nat.sub_self]
    rfl
  · obtain ⟨b, hb, heq⟩ := hstring i hi
    rw [heq]
    exact beforeNul_ne_zero (List.mem_of_getElem? hb)
  · refine List.ext_getElem? fun i => ?_
    by_cases hi : i < strlen word.bytes
    · obtain ⟨b, hb, heq⟩ := hstring i hi
      rw [hb, buffer_getElem?.mpr ⟨hi, heq⟩]
    · have hle : (beforeNul word.bytes).length ≤ i := Nat.le_of_not_lt hi
      rw [List.getElem?_eq_none (by simpa using hi), List.getElem?_eq_none hle]

/-! ## The call -/

theorem typed_letter : Typed 97 ∧ Typed 98 := by
  unfold Typed
  decide

theorem keyboard_delivers_iff {size : Int} {len m : Nat} {left : Nat → UInt8} (hpos : 0 < size)
    (hm : m ≤ len) (hlen : 0 < len) :
    (∀ word : Word, word.bytes.length = len → strlen word.bytes = m →
        Delivered addr size word.bytes
          (k.readKeyboard random merged addr size (some word) left)) ↔
      IsInt (size + 10) ∧ len < size + 10 ∧ k.Takes Typed random addr size m := by
  rw [← and_assoc, ← lt_bufferLength]
  by_cases hfit : len < bufferLength size
  · obtain ⟨hint, -⟩ := lt_bufferLength.mp hfit
    have hsize : size < 4294967296 := by
      have := hint.2
      omega
    -- for a word that fits, what counts is the string before its NUL
    have hword (word : Word) (hl : word.bytes.length = len) (hs : strlen word.bytes = m) :
        Delivered addr size word.bytes
            (k.readKeyboard random merged addr size (some word) left) ↔
          m ≤ size ∧ k.Arrives random addr size (beforeNul word.bytes) := by
      obtain ⟨buffer, hscan, hnul, hbytes⟩ := @scanf_word (bufferLength size) word left (hl ▸ hfit)
      rw [readKeyboard_delivered_iff hpos hscan hnul fun _ => (take_strlen _).trans hbytes.symm,
        hbytes, hs, hl, and_iff_right hm]
    rw [and_iff_right hfit, ← takes_iff typed_letter.1 typed_letter.2 hsize,
      ← forall_word_iff hm hlen]
    exact forall_congr' fun word => forall_congr' fun hl => forall_congr' fun hs => hword word hl hs
  · -- `scanf` overruns the buffer
    refine iff_of_false (fun h => ?_) fun h => hfit h.1
    have hnone (word : Word) (hl : word.bytes.length = len) (hs : strlen word.bytes = m) :
        False := by
      have hword := h word hl hs
      have hscan : scanf (bufferLength size) left (some word) = none := if_neg (hl ▸ hfit)
      unfold readKeyboard at hword
      rw [hscan] at hword
      exact hword
    exact (forall_word_iff (P := fun _ => False) hm hlen).mp hnone (List.replicate m 97)
      List.length_replicate (fun b hb => List.eq_of_mem_replicate hb ▸ typed_letter.1)

theorem end_of_input_delivers_iff {size : Int} {left : Nat → UInt8} (hpos : 0 < size) :
    Delivered addr size [] (k.readKeyboard random merged addr size none left) ↔
      IsInt (size + 10) ∧ left 0 = 0 ∧ k.Takes Typed random addr size 0 := by
  have hbuffer : IsInt (size + 10) ↔ 0 < bufferLength size := by
    rw [lt_bufferLength]
    exact ⟨fun h => ⟨h, by omega⟩, fun h => h.1⟩
  have hscan : scanf (bufferLength size) left none = some left := rfl
  rw [hbuffer]
  cases hnul : findNul (bufferLength size) left with
  | none =>
    refine iff_of_false ?_ fun ⟨hlt, h0, _⟩ => ?_
    · unfold readKeyboard
      rw [hscan]
      dsimp only
      rw [hnul]
      exact id
    · cases hnul.symm.trans (findNul_eq_some.mpr ⟨hlt, h0, fun i hi => absurd hi (by omega)⟩)
  | some z =>
    obtain ⟨hlt, h0, hne⟩ := findNul_eq_some.mp hnul
    rw [readKeyboard_delivered_iff hpos hscan hnul fun hz => by
      rw [Nat.le_zero.mp hz]
      rfl]
    cases z with
    | succ z => exact iff_of_false (fun h => by simpa using h.1) fun h => hne 0 (by omega) h.2.1
    | zero =>
      have hint := hbuffer.mpr hlt
      rw [and_iff_right hlt, and_iff_right h0, and_iff_right (Nat.zero_le _),
        ← takes_iff typed_letter.1 typed_letter.2 (by have := hint.2; omega)]
      constructor
      · intro h p hlen _
        rw [List.length_eq_zero_iff.mp hlen]
        exact h
      · intro h
        exact h [] rfl nofun

section
variable {size : Int} {file : List UInt8} (hpos : 0 < size)
include hpos

theorem size_lt_bufferLength (hint : IsInt (size + 10)) : size.toNat < bufferLength size :=
  lt_bufferLength.mpr ⟨hint, by omega⟩

/-- A file with enough bytes before its NUL fills the buffer. -/
theorem readFile_full_iff (hint : IsInt (size + 10)) (hlong : size ≤ strlen file) :
    Delivered addr size file (k.readFile random merged addr size file) ↔
      ∃ st k', Writing random addr 0 k ((beforeNul file).take size.toNat) st k' ∧
        k'.UserBytes addr ((beforeNul file).take size.toNat) := by
  have hbytes : file.take size.toNat = (beforeNul file).take size.toNat := by
    rw [← take_strlen, List.take_take, Nat.min_eq_left (by omega)]
  have hlen : (file.take size.toNat).length = size.toNat := by
    rw [hbytes, List.length_take]
    exact Nat.min_eq_left (by unfold strlen at hlong; omega)
  have hloop {n : Nat} {st : List (BitVec 32)} {k' : Kernel} := @deliver_bytes k k' addr random
    merged 0 (file.take size.toNat) [] st (bufferLength size) 0 n (file[·]?)
    (fun hmem => beforeNul_ne_zero (List.mem_of_mem_take (hbytes ▸ hmem)) rfl)
    (by have := size_lt_bufferLength hpos hint; omega)
    (fun i b hb => by
      rw [List.getElem?_take] at hb
      split at hb
      · rw [Nat.zero_add]
        exact hb
      · cases hb)
  rw [hlen] at hloop
  rw [delivered_iff, ← hbytes]
  unfold readFile
  constructor
  · intro ⟨n, st, k', hr, _, _, huser, _⟩
    obtain ⟨st1, k1, hwrite, h⟩ := hloop.mp hr
    cases h
    rw [Nat.zero_add] at huser
    exact ⟨_, _, hwrite, huser⟩
  · intro ⟨st, k', hwrite, huser⟩
    refine ⟨size.toNat, st, k', hloop.mpr ⟨st, k', hwrite, ?_⟩, by omega, ?_, huser, ?_⟩
    · rw [Nat.zero_add]
      rfl
    · rw [← hlen]
      exact List.length_take_le' _ _
    · intro a ha
      obtain ⟨i, hi, rfl⟩ := hwrite.range ha
      exact ⟨i, by omega, by rw [Nat.zero_add]⟩

/-- A string in the file that is shorter than the buffer is stored with its
NUL. -/
theorem readFile_string_iff (hint : IsInt (size + 10)) (hshort : strlen file < size)
    (hnul : strlen file < file.length) :
    Delivered addr size file (k.readFile random merged addr size file) ↔
      k.Arrives random addr size (beforeNul file) := by
  obtain ⟨rounds, hrounds⟩ : ∃ rounds, size.toNat = strlen file + (rounds + 1) :=
    ⟨size.toNat - strlen file - 1, by omega⟩
  obtain ⟨cs, hcs⟩ := append_nul file
  have hloop {n : Nat} {st : List (BitVec 32)} {k' : Kernel} := @deliver_string k k' addr random
    merged (beforeNul file) st (bufferLength size) rounds n (file[·]?)
    (fun hmem => beforeNul_ne_zero hmem rfl)
    (by have := size_lt_bufferLength hpos hint; unfold strlen at hshort; omega)
    (fun i b hb => by
      have hi := (List.getElem?_eq_some_iff.mp hb).1
      rw [List.length_append, List.length_singleton] at hi
      have hfile : (file ++ [0])[i]? = some b := by
        rw [hcs, show beforeNul file ++ 0 :: cs = beforeNul file ++ [0] ++ cs by simp,
          List.getElem?_append_left (by simpa using hi), hb]
      rwa [List.getElem?_append_left (by unfold strlen at hnul; omega)] at hfile)
  rw [delivered_iff]
  unfold readFile
  rw [hrounds]
  constructor
  · rintro ⟨n, st, k', hr, -, -, huser, hrange⟩
    obtain ⟨rfl, hwrite⟩ := hloop.mp hr
    rw [← strlen, take_strlen] at huser
    exact ⟨st, k', hwrite, huser, hrange⟩
  · rintro ⟨st, k', hwrite, huser, hrange⟩
    refine ⟨strlen file, st, k', hloop.mpr ⟨rfl, hwrite⟩, Int.le_of_lt hshort, strlen_le file, ?_,
      hrange⟩
    rwa [take_strlen]

/-- Reading on at the end of the file fails an assertion. -/
theorem readFile_end (hint : IsInt (size + 10)) (hshort : file.length < size)
    (hnul : strlen file = file.length) :
    ¬ Delivered addr size file (k.readFile random merged addr size file) := by
  obtain ⟨rounds, hrounds⟩ : ∃ rounds, size.toNat = file.length + (rounds + 1) :=
    ⟨size.toNat - file.length - 1, by omega⟩
  have hall : beforeNul file = file := by
    rw [← take_strlen, hnul, List.take_length]
  have hlt := size_lt_bufferLength hpos hint
  rw [delivered_iff]
  intro ⟨n, st, k', hr, _⟩
  unfold readFile at hr
  rw [hrounds] at hr
  obtain ⟨st1, k1, -, hr⟩ := (deliver_bytes (fun hmem => beforeNul_ne_zero (hall.symm ▸ hmem) rfl)
    (by omega) fun i b hb => by rw [Nat.zero_add]; exact hb).mp hr
  rw [deliver, if_pos (by omega), List.getElem?_eq_none (by omega)] at hr
  cases hr

theorem readFile_no_buffer (hint : ¬ IsInt (size + 10)) :
    ¬ Delivered addr size file (k.readFile random merged addr size file) := by
  obtain ⟨rounds, hrounds⟩ : ∃ rounds, size.toNat = rounds + 1 := ⟨size.toNat - 1, by omega⟩
  have hnone : ¬ 0 < bufferLength size := fun h => hint (lt_bufferLength.mp h).1
  unfold readFile
  rw [hrounds, deliver, if_neg hnone]
  exact id

end

theorem file_delivers_iff {size : Int} {len m : Nat} (hpos : 0 < size) (hm : m ≤ len) :
    (∀ file : List UInt8, file.length = len → strlen file = m →
        Delivered addr size file (k.readFile random merged addr size file)) ↔
      IsInt (size + 10) ∧ (size ≤ m ∧ k.HasRoom addr size.toNat ∨
        m < size ∧ m < len ∧ k.Takes (· ≠ 0) random addr size m) := by
  have h97 : (97 : UInt8) ≠ 0 := by decide
  have h98 : (98 : UInt8) ≠ 0 := by decide
  -- a property of no file is no property of all
  have hsome (h : ∀ file : List UInt8, file.length = len → strlen file ≠ m) : False :=
    (forall_string_iff (P := fun _ => False) hm).mp (fun file hl hs => h file hl hs)
      (List.replicate m 97) List.length_replicate
      (fun b hb => List.eq_of_mem_replicate hb ▸ h97)
  by_cases hint : IsInt (size + 10)
  · rw [and_iff_right hint]
    rcases Int.lt_or_le (m : Int) size with hshort | hlong
    · rw [or_iff_right fun h => by omega, and_iff_right hshort]
      by_cases hend : m < len
      · rw [and_iff_right hend, ← takes_iff h97 h98 (by have := hint.2; omega),
          ← forall_string_iff hm]
        refine forall_congr' fun file => forall_congr' fun hl => forall_congr' fun hs => ?_
        rw [readFile_string_iff hpos hint (hs ▸ hshort) (by omega),
          and_iff_right (Int.le_of_lt hshort)]
      · refine iff_of_false (fun h => hsome fun file hl hs => ?_) fun h => hend h.1
        exact readFile_end hpos hint (by omega) (by omega) (h file hl hs)
    · rw [or_iff_left fun h => by omega, and_iff_right hlong,
        ← @arrives_iff k addr random (· ≠ 0) h97 h98 size.toNat]
      refine Iff.trans (forall_congr' fun file => forall_congr' fun hl => forall_congr' fun hs =>
        readFile_full_iff hpos hint (hs ▸ hlong)) (Iff.trans (forall_string_iff
          (P := fun p => ∃ st k', Writing random addr 0 k (p.take size.toNat) st k' ∧
            k'.UserBytes addr (p.take size.toNat)) hm) ?_)
      constructor
      · intro h p hlen hne
        -- the bytes behind the first `size` do not matter
        have hlong' := h (p ++ List.replicate (m - p.length) 97) (by simp; omega) fun b hb => by
          rcases List.mem_append.mp hb with hb | hb
          · exact hne b hb
          · exact List.eq_of_mem_replicate hb ▸ h97
        rwa [List.take_left' hlen] at hlong'
      · intro h p hlen hne
        exact h _ (by rw [List.length_take]; omega) fun b hb => hne b (List.mem_of_mem_take hb)
  · refine iff_of_false (fun h => hsome fun file hl hs => ?_) fun h => hint h.1
    exact readFile_no_buffer hpos hint (h file hl hs)

/-- `SRead` keeps its promise for every input of the given length, with the first
NUL in the given place, exactly under these conditions. Its buffer of
`size + 10` bytes exists and, from the keyboard, holds the word. From the
keyboard, and from a file that has a NUL among its first `size` bytes, the user's
buffer takes the string with its NUL; from a file that has none there, there are
`size` bytes, and room for them in memory. At the end of the keyboard's input
the buffer happens to start with a NUL. -/
theorem read_delivers_iff {size id : Int} {left : Nat → UInt8} (hpos : 0 < size) :
    (id = 0 → ∀ len m : Nat, 0 < len → m ≤ len → ∀ file,
      ((∀ word : Word, word.bytes.length = len → strlen word.bytes = m →
          Delivered addr size word.bytes
            (k.sRead random merged addr size id (some word) left file)) ↔
        IsInt (size + 10) ∧ len < size + 10 ∧ k.Takes Typed random addr size m)) ∧
    (id = 0 → ∀ file,
      (Delivered addr size [] (k.sRead random merged addr size id none left file) ↔
        IsInt (size + 10) ∧ left 0 = 0 ∧ k.Takes Typed random addr size 0)) ∧
    (id ≠ 0 → ∀ len m : Nat, m ≤ len → ∀ word,
      ((∀ file : List UInt8, file.length = len → strlen file = m →
          Delivered addr size file (k.sRead random merged addr size id word left file)) ↔
        IsInt (size + 10) ∧ (size ≤ m ∧ k.HasRoom addr size.toNat ∨
          m < size ∧ m < len ∧ k.Takes (· ≠ 0) random addr size m))) := by
  refine ⟨fun hid len m hlen hm file => ?_, fun hid file => ?_, fun hid len m hm word => ?_⟩
  · simp only [sRead, if_pos hid]
    exact keyboard_delivers_iff hpos hm hlen
  · simp only [sRead, if_pos hid]
    exact end_of_input_delivers_iff hpos
  · simp only [sRead, if_neg hid]
    exact file_delivers_iff hpos hm

/-! ## Concrete calls -/

/-- The program calls `Read(addr, size, 0)`. -/
def readSample (addr size : BitVec 32) : List Event :=
  [.instr [] (Registers.write (Registers.write (Registers.write (fun _ => 0)
    2 scRead) 4 addr) 5 size), .trap]

/-- `abc`. -/
def wordSample : Word where
  bytes := [97, 98, 99]
  nonempty := List.cons_ne_nil _ _
  solid := by simp [isSpace]

/-- Where a byte stored at `addr` would go. -/
def writePlace (k : Kernel) (addr : BitVec 32) : Option Nat :=
  match k.translate addr .byte true with
  | .ok (.mapped physAddr _) => some physAddr
  | _ => none

theorem writable_of_writePlace {x : Nat} (h : k.writePlace addr = some x) : k.Writable addr x := by
  unfold writePlace at h
  split at h
  · rename_i physAddr entry htr
    cases h
    exact ⟨entry, htr⟩
  · cases h

/-- With its page in memory, a buffer of four bytes takes every word of three. -/
theorem read_delivers_three : ∃ k0 k, boot (.sample 2) = .ok k0 ∧
    Run step k0 (.fault 1024 0 :: readSample 1024 4) k ∧
    ∀ word : Word, word.bytes.length = 3 → strlen word.bytes = 3 →
      Delivered 1024 4 word.bytes
        (k.sRead (fun _ => 0) false 1024 4 0 (some word) (fun _ => 0) []) := by
  have hdemo : (Config.sample 2).reaches (.fault 1024 0 :: readSample 1024 4) (fun k =>
      (List.range 4).all fun i => k.writePlace (1024 + BitVec.ofNat 32 i) == some i) = true := by
    decide +kernel
  obtain ⟨k0, k, hboot, hrun, hp⟩ := Config.reaches_iff.mp hdemo
  have hroom : k.HasRoom 1024 (3 + 1) := by
    refine ⟨id, fun i hi => writable_of_writePlace ?_, fun i _ j hj => Nat.ne_of_gt hj⟩
    exact beq_iff_eq.mp (List.all_eq_true.mp hp i (List.mem_range.mpr hi))
  have hiff := (@read_delivers_iff k 1024 (fun _ => 0) false 4 0 (fun _ => 0) (by decide)).1 rfl
    3 3 (by decide) (by decide) []
  exact ⟨k0, k, hboot, hrun, hiff.mpr ⟨by decide, by decide, .inl ⟨by decide, hroom⟩⟩⟩

/-- `SRead` returns `num`, having stored at `stored`, in a state with `p`. -/
def returns (r : Except Fault ReadEnd) (num : Nat) (stored : List (BitVec 32))
    (p : Kernel → Bool) : Bool :=
  match r with
  | .ok (.returned num' stored' k') => num' = num && stored' = stored && p k'
  | _ => false

theorem returns_iff {r : Except Fault ReadEnd} {stored : List (BitVec 32)} {p : Kernel → Bool} :
    returns r num stored p = true ↔
      ∃ k', r = .ok (.returned num stored k') ∧ p k' = true := by
  unfold returns
  constructor
  · intro h
    split at h
    · rename_i num' stored' k'
      simp only [Bool.and_eq_true, decide_eq_true_eq] at h
      obtain ⟨⟨rfl, rfl⟩, hp⟩ := h
      exact ⟨k', rfl, hp⟩
    · cases h
  · intro ⟨k', hr, hp⟩
    rw [hr]
    simp [hp]

/-- For a buffer of one byte the word `abc` gives the result 2 and a byte behind
the buffer. For a buffer of four bytes whose page is not in memory the first
letter is lost: the buffer holds a NUL there. -/
theorem read_not_delivered :
    (∃ k0 k k', boot (.sample 2) = .ok k0 ∧ Run step k0 (.fault 1024 0 :: readSample 1024 1) k ∧
      k.sRead (fun _ => 0) false 1024 1 0 (some wordSample) (fun _ => 0) [] =
        .ok (.returned 2 [1024, 1025] k') ∧
      ¬ Delivered 1024 1 wordSample.bytes
        (k.sRead (fun _ => 0) false 1024 1 0 (some wordSample) (fun _ => 0) [])) ∧
    ∃ k0 k k', boot (.sample 2) = .ok k0 ∧ Run step k0 (readSample 1024 4) k ∧
      k.sRead (fun _ => 0) false 1024 4 0 (some wordSample) (fun _ => 0) [] =
        .ok (.returned 3 [1025, 1026, 1027] k') ∧ k'.UserByte 1024 0 ∧
      ¬ Delivered 1024 4 wordSample.bytes
        (k.sRead (fun _ => 0) false 1024 4 0 (some wordSample) (fun _ => 0) []) := by
  constructor
  · have hdemo : (Config.sample 2).reaches (.fault 1024 0 :: readSample 1024 1) (fun k =>
        returns (k.sRead (fun _ => 0) false 1024 1 0 (some wordSample) (fun _ => 0) []) 2
          [1024, 1025] fun _ => true) = true := by
      decide +kernel
    obtain ⟨k0, k, hboot, hrun, hp⟩ := Config.reaches_iff.mp hdemo
    obtain ⟨k', hread, -⟩ := returns_iff.mp hp
    refine ⟨k0, k, k', hboot, hrun, hread, ?_⟩
    rw [hread]
    intro ⟨hle, _⟩
    exact absurd hle (by decide)
  · have hdemo : (Config.sample 2).reaches (readSample 1024 4) (fun k =>
        returns (k.sRead (fun _ => 0) false 1024 4 0 (some wordSample) (fun _ => 0) []) 3
          [1025, 1026, 1027] fun k' => k'.peek 1024 = some 0) = true := by
      decide +kernel
    obtain ⟨k0, k, hboot, hrun, hp⟩ := Config.reaches_iff.mp hdemo
    obtain ⟨k', hread, hpeek⟩ := returns_iff.mp hp
    have hbyte := userByte_of_peek (of_decide_eq_true hpeek)
    refine ⟨k0, k, k', hboot, hrun, hread, hbyte, ?_⟩
    rw [hread]
    intro ⟨_, _, huser, _⟩
    exact absurd (hbyte.unique (huser 0 97 rfl)) (by decide)

end Kernel
end Nachos

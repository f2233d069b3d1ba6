import Nachos.Lib.Run
import Nachos.Threads.Utility

/-! The input side of the console (console.h, console.cc) and a thread that takes
its characters the way `ConsoleTest` does (progtest.cc): it waits on the semaphore
`readAvail`, which the device raises for every character, and then calls `GetChar`.
The device polls when its interrupt comes, which may be at any time. -/

namespace Nachos
open Lib

/-- The `EOF` of the host. -/
def eof : Int := -1

/-- The device, the value of `readAvail`, and the thread: `granted` says that it is
behind its `P`. `input` is what is left in the input file, and `returned` records
the results of `GetChar`. -/
structure Console where
  incoming : Int8
  input : List UInt8
  readAvail : Nat
  granted : Bool
  returned : List Int8

namespace Console

/-- `Console::Console`, with the semaphore at 0. -/
def new (input : List UInt8) : Console where
  incoming := .ofInt eof
  input := input
  readAvail := 0
  granted := false
  returned := []

/-- `Read` and the handler `ReadAvail`. -/
def receive (s : Console) : Except Fault Console :=
  match s.input with
  | [] => .error (.assertion .read)
  | c :: rest =>
    .ok { s with input := rest, incoming := c.toInt8, readAvail := s.readAvail + 1 }

/-- `ready` is the result of `PollFile`: a character may not have been typed yet,
and at the end of a file there is always something to be read. -/
def checkCharAvail (s : Console) (ready : Bool) : Except Fault Console :=
  -- the comparison is one of ints
  if s.incoming.toInt ≠ eof ∨ ready = false then .ok s else s.receive

/-- The return of `readAvail->P()`, which waits for a positive value. -/
def p (s : Console) : Except Fault Console :=
  if s.granted = false ∧ 0 < s.readAvail then
    .ok { s with readAvail := s.readAvail - 1, granted := true }
  else .error .disabled

def getChar (s : Console) : Except Fault Console :=
  if s.granted then
    .ok { s with returned := s.returned ++ [s.incoming], incoming := .ofInt eof, granted := false }
  else .error .disabled

inductive Event
  | checkCharAvail (ready : Bool)
  | p
  | getChar

def step (s : Console) : Event → Except Fault Console
  | .checkCharAvail ready => s.checkCharAvail ready
  | .p => s.p
  | .getChar => s.getChar

/-! ## What can happen -/

inductive Moves : Console → Console → Prop
  | stay {s : Console} : Moves s s
  | receive {s : Console} {c : UInt8} {rest : List UInt8} (empty : s.incoming.toInt = eof)
      (next : s.input = c :: rest) :
      Moves s { s with input := rest, incoming := c.toInt8, readAvail := s.readAvail + 1 }
  | grant {s : Console} (outside : s.granted = false) (raised : 0 < s.readAvail) :
      Moves s { s with readAvail := s.readAvail - 1, granted := true }
  | take {s : Console} (inside : s.granted = true) :
      Moves s { s with returned := s.returned ++ [s.incoming], incoming := .ofInt eof
                       granted := false }

variable {s s' : Console}

theorem receive_eq_ok (h : s.receive = .ok s') : ∃ c rest, s.input = c :: rest ∧
    s' = { s with input := rest, incoming := c.toInt8, readAvail := s.readAvail + 1 } := by
  unfold receive at h
  split at h
  · cases h
  · rename_i c rest hinput
    cases h
    exact ⟨c, rest, hinput, rfl⟩

theorem step_moves {e : Event} (h : s.step e = .ok s') : Moves s s' := by
  cases e with
  | checkCharAvail ready =>
    change s.checkCharAvail ready = _ at h
    unfold checkCharAvail at h
    split at h
    · cases h
      exact .stay
    · rename_i hempty
      obtain ⟨c, rest, hinput, rfl⟩ := receive_eq_ok h
      exact .receive (not_not.mp (not_or.mp hempty).1) hinput
  | p =>
    obtain ⟨⟨houtside, hraised⟩, h⟩ := ite_error_eq_ok.mp h
    cases h
    exact .grant houtside hraised
  | getChar =>
    obtain ⟨hinside, h⟩ := ite_error_eq_ok.mp h
    cases h
    exact .take hinside

/-! ## Nothing is lost -/

/-- How often the thread may still call `GetChar`. -/
def credit (s : Console) : Nat := s.readAvail + s.granted.toNat

/-- Where the input `bytes` is: returned, in the buffer, and in the file. A byte in
the buffer that makes it look empty is the last one. -/
inductive Holds (bytes : List UInt8) (s : Console) : Prop
  | empty (taken : List UInt8) (returned : s.returned = taken.map UInt8.toInt8)
      (buffer : s.incoming = .ofInt eof) (none : s.credit = 0) (all : taken ++ s.input = bytes)
  | full (taken : List UInt8) (c : UInt8) (returned : s.returned = taken.map UInt8.toInt8)
      (buffer : s.incoming = c.toInt8) (one : s.credit = 1) (all : taken ++ c :: s.input = bytes)
      (last : s.incoming.toInt = eof → s.input = [])

theorem eq_of_toInt8_eof {c : UInt8} (h : c.toInt8.toInt = eof) : c = 255 := by
  have hchar : c.toInt8 = (255 : UInt8).toInt8 := Int8.toInt_inj.mp h
  rw [← c.toUInt8_toInt8, hchar]
  rfl

theorem mem_dropLast_iff {b : UInt8} {bytes : List UInt8} :
    b ∈ bytes.dropLast ↔ ∃ taken d rest, bytes = taken ++ b :: d :: rest := by
  constructor
  · intro hmem
    have hne : bytes ≠ [] := fun hnil => by
      rw [hnil] at hmem
      cases hmem
    obtain ⟨taken, t, hsplit⟩ := List.append_of_mem hmem
    have hlast := List.dropLast_concat_getLast hne
    rw [hsplit, List.append_assoc] at hlast
    cases t with
    | nil => exact ⟨taken, _, [], hlast.symm⟩
    | cons d t => exact ⟨taken, d, t ++ [bytes.getLast hne], hlast.symm⟩
  · intro ⟨taken, d, rest, hbytes⟩
    rw [hbytes, List.dropLast_append_cons]
    exact List.mem_append_right _ List.mem_cons_self

theorem Moves.holds {bytes : List UInt8} (clean : 255 ∉ bytes.dropLast) (h : Moves s s')
    (hs : s.Holds bytes) : s'.Holds bytes := by
  cases h with
  | stay => exact hs
  | @receive c rest hempty hinput =>
    cases hs with
    | empty taken returned buffer none all =>
      rw [hinput] at all
      refine .full taken c returned rfl ?_ all fun hlast => ?_
      · unfold credit at none ⊢
        dsimp only
        omega
      · obtain rfl := eq_of_toInt8_eof hlast
        cases rest with
        | nil => rfl
        | cons d rest => exact absurd (mem_dropLast_iff.mpr ⟨taken, d, rest, all.symm⟩) clean
    | full taken d returned buffer one all last =>
      -- the buffer only looks empty, and the file is
      rw [last hempty] at hinput
      cases hinput
  | grant houtside hraised =>
    have hcredit : credit { s with readAvail := s.readAvail - 1, granted := true } = s.credit := by
      unfold credit
      rw [houtside]
      exact Nat.sub_add_cancel hraised
    cases hs with
    | empty taken returned buffer none all =>
      exact .empty taken returned buffer (hcredit.trans none) all
    | full taken c returned buffer one all last =>
      exact .full taken c returned buffer (hcredit.trans one) all last
  | take hinside =>
    cases hs with
    | empty taken returned buffer none all =>
      rw [credit, hinside] at none
      cases none
    | full taken c returned buffer one all last =>
      rw [credit, hinside] at one
      refine .empty (taken ++ [c]) ?_ rfl (Nat.succ.inj one) ?_
      · rw [returned, buffer, List.map_append]
        rfl
      · rw [List.append_assoc]
        exact all

theorem new_holds (bytes : List UInt8) : (new bytes).Holds bytes :=
  .empty [] rfl rfl rfl rfl

/-- What the console is to do: the characters that the thread gets are the input,
in its order and from its start, and of the bytes that have left the file all but
one have been taken. -/
def Lossless (bytes : List UInt8) : Prop :=
  ∀ es s, Run step (new bytes) es s → s.returned <+: bytes.map UInt8.toInt8 ∧
    bytes.length ≤ s.returned.length + 1 + s.input.length

theorem Holds.lossless {bytes : List UInt8} (h : s.Holds bytes) :
    s.returned <+: bytes.map UInt8.toInt8 ∧
      bytes.length ≤ s.returned.length + 1 + s.input.length := by
  cases h with
  | empty taken returned buffer none all =>
    rw [returned, ← all, List.map_append]
    refine ⟨List.prefix_append _ _, ?_⟩
    rw [List.length_append, List.length_map]
    omega
  | full taken c returned buffer one all last =>
    rw [returned, ← all, List.map_append]
    refine ⟨List.prefix_append _ _, ?_⟩
    rw [List.length_append, List.length_map, List.length_cons]
    omega

/-! ## A byte that looks like the end of the file -/

/-- The bytes `bytes` are taken one by one. -/
def takeAll : List UInt8 → List Event
  | [] => []
  | _ :: bytes => .checkCharAvail true :: .p :: .getChar :: takeAll bytes

/-- The state with an empty buffer. -/
def drained (input : List UInt8) (returned : List Int8) : Console :=
  ⟨.ofInt eof, input, 0, false, returned⟩

theorem run_takeAll (taken rest : List UInt8) (returned : List Int8) :
    Run step (drained (taken ++ rest) returned) (takeAll taken)
      (drained rest (returned ++ taken.map UInt8.toInt8)) := by
  induction taken generalizing returned with
  | nil =>
    rw [List.map_nil, List.append_nil]
    exact .nil
  | cons c taken ih =>
    have hrest := ih (returned ++ [c.toInt8])
    rw [List.append_assoc] at hrest
    exact .cons rfl (.cons rfl (.cons rfl hrest))

/-- Behind a byte 255 the next poll takes the buffer for empty. -/
theorem run_overwrite (d : UInt8) (rest : List UInt8) (returned : List Int8) :
    Run step (drained (255 :: d :: rest) returned) [.checkCharAvail true, .checkCharAvail true]
      ⟨d.toInt8, rest, 2, false, returned⟩ :=
  .cons rfl (.cons rfl .nil)

/-- Nothing is lost exactly if no byte but the last one is 255, which is `EOF` as a
`char`. -/
theorem console_lossless_iff (bytes : List UInt8) : Lossless bytes ↔ 255 ∉ bytes.dropLast := by
  constructor
  · intro h hmem
    obtain ⟨taken, d, rest, rfl⟩ := mem_dropLast_iff.mp hmem
    have hrun := (run_takeAll taken (255 :: d :: rest) []).append (run_overwrite d rest _)
    have hread := (h _ _ hrun).2
    simp only [List.length_append, List.length_map, List.length_cons, List.length_nil] at hread
    omega
  · intro clean es s run
    have hholds : s.Holds bytes :=
      run.inv (fun _ _ _ hs h => (step_moves h).holds clean hs) (new_holds bytes)
    exact hholds.lossless

/-- The letter A behind a byte 255: both have left the file before the thread calls
`GetChar`, which returns A and then `EOF`. -/
theorem console_loses : ¬ Lossless [255, 65] ∧ ∃ s, Run step (new [255, 65])
    [.checkCharAvail true, .checkCharAvail true, .p, .getChar, .p, .getChar] s ∧
      s.returned = [65, -1] := by
  refine ⟨fun h => ?_, ?_⟩
  · exact absurd (h _ _ (run_overwrite 65 [] [])).2 (by decide)
  · exact ⟨_, .cons rfl (.cons rfl (.cons rfl (.cons rfl (.cons rfl (.cons rfl .nil))))), rfl⟩

end Console
end Nachos

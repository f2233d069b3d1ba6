import Nachos.Machine.Console

/-! The console test (progtest.cc): a thread that echoes what is typed until it has
echoed a `q`, on both sides of the console (console.cc). A write makes the display busy
until the interrupt that it schedules has come. Interrupts come at any time between the
thread's steps, for nothing else is done with the semaphores. -/

namespace Nachos
open Lib

/-- What the thread does next, with its variable `ch`. -/
inductive ConsoleTest.Point
  | readP
  | getChar
  | putChar (ch : Int8)
  | writeP (ch : Int8)
  | test (ch : Int8)
  | returned
  deriving DecidableEq

/-- Why a step is not made. -/
inductive ConsoleTest.Stop
  | fault (f : Fault)
  | putBusy
  deriving DecidableEq

/-- `writes` counts the write interrupts that are pending, and `writeDone` is the value
of the semaphore; `console` has the input side. -/
structure ConsoleTest where
  console : Console
  putBusy : Bool
  writes : Nat
  writeDone : Nat
  output : List UInt8
  point : ConsoleTest.Point

namespace ConsoleTest

/-- The letter that ends the test. -/
abbrev quit : UInt8 := 113

/-- The console and the semaphores are made before the first interrupt can come. -/
def new (input : List UInt8) : ConsoleTest where
  console := .new input
  putBusy := false
  writes := 0
  writeDone := 0
  output := []
  point := .readP

def putChar (s : ConsoleTest) (ch : Int8) : Except Stop ConsoleTest :=
  if s.putBusy = false then
    .ok { s with output := s.output ++ [ch.toUInt8], putBusy := true, writes := s.writes + 1 }
  else .error .putBusy

/-- `Console::WriteDone`, with the handler. -/
def consoleWriteDone (s : ConsoleTest) : Except Stop ConsoleTest :=
  if 0 < s.writes then
    .ok { s with writes := s.writes - 1, putBusy := false, writeDone := s.writeDone + 1 }
  else .error (.fault .disabled)

/-- The return of `writeDone->P()`. -/
def writeP (s : ConsoleTest) : Except Stop ConsoleTest :=
  if 0 < s.writeDone then .ok { s with writeDone := s.writeDone - 1 }
  else .error (.fault .disabled)

/-- The input side makes a step. -/
def input (s : ConsoleTest) (x : Except Fault Console) : Except Stop ConsoleTest := do
  let console ← x.mapError Stop.fault
  .ok { s with console := console }

/-- The loop of `ConsoleTest`, one call at a time. -/
def advance (s : ConsoleTest) : Except Stop ConsoleTest :=
  match s.point with
  | .readP => do
    let s ← s.input s.console.p
    .ok { s with point := .getChar }
  | .getChar => do
    let ch := s.console.incoming
    let s ← s.input s.console.getChar
    .ok { s with point := .putChar ch }
  | .putChar ch => do
    let s ← s.putChar ch
    .ok { s with point := .writeP ch }
  | .writeP ch => do
    let s ← s.writeP
    .ok { s with point := .test ch }
  | .test ch => .ok { s with point := if ch = quit.toInt8 then .returned else .readP }
  | .returned => .error (.fault .disabled)

inductive Event
  | checkCharAvail (ready : Bool)
  | consoleWriteDone
  | advance

def step (s : ConsoleTest) : Event → Except Stop ConsoleTest
  | .checkCharAvail ready => s.input (s.console.checkCharAvail ready)
  | .consoleWriteDone => s.consoleWriteDone
  | .advance => s.advance

/-- What the test is to write: the input up to the first `q`. -/
def echo : List UInt8 → List UInt8
  | [] => []
  | c :: cs => if c = quit then [c] else c :: echo cs

theorem echo_append {o rest : List UInt8} (h : quit ∉ o) : echo (o ++ rest) = o ++ echo rest := by
  induction o with
  | nil => rfl
  | cons c o ih =>
    obtain ⟨hc, ho⟩ := not_or.mp (List.mem_cons.not.mp h)
    exact (if_neg fun he => hc he.symm).trans (congrArg (c :: ·) (ih ho))

/-! ## What can happen -/

/-- The steps that do something, with their conditions. -/
inductive Moves : ConsoleTest → ConsoleTest → Prop
  | receive {s : ConsoleTest} {c : UInt8} {rest : List UInt8}
      (empty : s.console.incoming.toInt = eof) (next : s.console.input = c :: rest) :
      Moves s { s with console := { s.console with
        input := rest, incoming := c.toInt8, readAvail := s.console.readAvail + 1 } }
  | grant {s : ConsoleTest} (pt : s.point = .readP) (outside : s.console.granted = false)
      (raised : 0 < s.console.readAvail) :
      Moves s { s with point := .getChar, console := { s.console with
        readAvail := s.console.readAvail - 1, granted := true } }
  | take {s : ConsoleTest} (pt : s.point = .getChar) (inside : s.console.granted = true) :
      Moves s { s with point := .putChar s.console.incoming, console := { s.console with
        returned := s.console.returned ++ [s.console.incoming], incoming := .ofInt eof
        granted := false } }
  | put {s : ConsoleTest} {ch : Int8} (pt : s.point = .putChar ch) (free : s.putBusy = false) :
      Moves s { s with point := .writeP ch, output := s.output ++ [ch.toUInt8], putBusy := true
                       writes := s.writes + 1 }
  | done {s : ConsoleTest} (pending : 0 < s.writes) :
      Moves s { s with writes := s.writes - 1, putBusy := false, writeDone := s.writeDone + 1 }
  | woken {s : ConsoleTest} {ch : Int8} (pt : s.point = .writeP ch) (raised : 0 < s.writeDone) :
      Moves s { s with writeDone := s.writeDone - 1, point := .test ch }
  | test {s : ConsoleTest} {ch : Int8} (pt : s.point = .test ch) :
      Moves s { s with point := if ch = quit.toInt8 then .returned else .readP }

variable {s s' : ConsoleTest} {bytes : List UInt8}

theorem input_eq_ok {x : Except Fault Console} (h : s.input x = .ok s') :
    ∃ c, x = .ok c ∧ s' = { s with console := c } := by
  cases x with
  | error f => cases h
  | ok c =>
    cases h
    exact ⟨c, rfl, rfl⟩

theorem input_eq_error {x : Except Fault Console} {f : Stop} (h : s.input x = .error f) :
    ∃ g, x = .error g ∧ f = .fault g := by
  cases x with
  | error g =>
    cases h
    exact ⟨g, rfl, rfl⟩
  | ok c => cases h

theorem advance_moves (h : s.advance = .ok s') : Moves s s' := by
  unfold advance at h
  split at h
  · rename_i pt
    obtain ⟨s1, h1, h⟩ := bind_eq_ok.mp h
    cases h
    obtain ⟨c, hc, rfl⟩ := input_eq_ok h1
    obtain ⟨⟨houtside, hraised⟩, hc⟩ := ite_error_eq_ok.mp hc
    cases hc
    exact .grant pt houtside hraised
  · rename_i pt
    obtain ⟨s1, h1, h⟩ := bind_eq_ok.mp h
    cases h
    obtain ⟨c, hc, rfl⟩ := input_eq_ok h1
    obtain ⟨hinside, hc⟩ := ite_error_eq_ok.mp hc
    cases hc
    exact .take pt hinside
  · rename_i ch pt
    obtain ⟨s1, h1, h⟩ := bind_eq_ok.mp h
    cases h
    obtain ⟨hfree, h1⟩ := ite_error_eq_ok.mp h1
    cases h1
    exact .put pt hfree
  · rename_i ch pt
    obtain ⟨s1, h1, h⟩ := bind_eq_ok.mp h
    cases h
    obtain ⟨hraised, h1⟩ := ite_error_eq_ok.mp h1
    cases h1
    exact .woken pt hraised
  · rename_i ch pt
    cases h
    exact .test pt
  · cases h

/-- A step, unless it is a poll for nothing. -/
theorem step_moves {e : Event} (h : s.step e = .ok s') : s' = s ∨ Moves s s' := by
  cases e with
  | checkCharAvail ready =>
    obtain ⟨c, hc, rfl⟩ := input_eq_ok h
    unfold Console.checkCharAvail at hc
    split at hc
    · cases hc
      exact .inl rfl
    · rename_i hempty
      obtain ⟨b, rest, hinput, rfl⟩ := Console.receive_eq_ok hc
      exact .inr (.receive (not_not.mp (not_or.mp hempty).1) hinput)
  | consoleWriteDone =>
    obtain ⟨hpending, h⟩ := ite_error_eq_ok.mp h
    cases h
    exact .inr (.done hpending)
  | advance => exact .inr (advance_moves h)

theorem Moves.step (h : Moves s s') : ∃ e, s.step e = .ok s' := by
  cases h with
  | receive empty next =>
    refine ⟨.checkCharAvail true, ?_⟩
    rw [ConsoleTest.step, Console.checkCharAvail, if_neg (by simp [empty]), Console.receive, next]
    rfl
  | grant pt outside raised =>
    refine ⟨.advance, ?_⟩
    rw [ConsoleTest.step, advance, pt]
    dsimp only
    rw [Console.p, if_pos ⟨outside, raised⟩]
    rfl
  | take pt inside =>
    refine ⟨.advance, ?_⟩
    rw [ConsoleTest.step, advance, pt]
    dsimp only
    rw [Console.getChar, if_pos inside]
    rfl
  | put pt free =>
    refine ⟨.advance, ?_⟩
    rw [ConsoleTest.step, advance, pt]
    dsimp only
    rw [putChar, if_pos free]
    rfl
  | done pending => exact ⟨.consoleWriteDone, if_pos pending⟩
  | woken pt raised =>
    refine ⟨.advance, ?_⟩
    rw [ConsoleTest.step, advance, pt]
    dsimp only
    rw [writeP, if_pos raised]
    rfl
  | test pt =>
    refine ⟨.advance, ?_⟩
    rw [ConsoleTest.step, advance, pt]

/-- The input side only sees the moves of its own. -/
theorem Moves.console (h : Moves s s') : s.console.Moves s'.console := by
  cases h with
  | put _ _ | done _ | woken _ _ | test _ => exact .stay
  | receive empty next => exact .receive empty next
  | grant _ outside raised => exact .grant outside raised
  | take _ inside => exact .take inside

/-! ## Safety -/

/-- The byte that has been taken and not yet written. -/
def Point.owed : Point → List UInt8
  | .putChar ch => [ch.toUInt8]
  | _ => []

/-- How many writes the thread has to wait for. -/
def Point.awaited : Point → Nat
  | .writeP _ => 1
  | _ => 0

/-- The byte that ends the output, if the thread has it still in hand: no other is a `q`. -/
def Ends (s : ConsoleTest) : Prop :=
  match s.point with
  | .writeP ch | .test ch => ∃ o, s.output = o ++ [ch.toUInt8] ∧ quit ∉ o
  | .returned => ∃ o, s.output = o ++ [quit] ∧ quit ∉ o
  | _ => quit ∉ s.output

structure Inv (bytes : List UInt8) (s : ConsoleTest) : Prop where
  holds : s.console.Holds bytes
  granted : s.console.granted = decide (s.point = .getChar)
  echoed : s.console.returned.map Int8.toUInt8 = s.output ++ s.point.owed
  ends : s.Ends
  busy : s.putBusy.toNat = s.writes
  awaited : s.writes + s.writeDone = s.point.awaited

theorem new_inv (bytes : List UInt8) : (new bytes).Inv bytes where
  holds := Console.new_holds bytes
  granted := rfl
  echoed := rfl
  ends := List.not_mem_nil
  busy := rfl
  awaited := rfl

theorem Moves.inv (clean : 255 ∉ bytes.dropLast) (h : Moves s s') (hi : s.Inv bytes) :
    s'.Inv bytes := by
  obtain ⟨holds, granted, echoed, ends, busy, awaited⟩ := hi
  have hholds := h.console.holds clean holds
  cases h with
  | receive _ _ => exact ⟨hholds, granted, echoed, ends, busy, awaited⟩
  | grant pt _ _ =>
    rw [Ends, pt] at ends
    rw [pt] at echoed awaited
    exact ⟨hholds, rfl, echoed, ends, busy, awaited⟩
  | take pt _ =>
    rw [Ends, pt] at ends
    rw [pt] at echoed awaited
    refine ⟨hholds, rfl, ?_, ends, busy, awaited⟩
    change (s.console.returned ++ [s.console.incoming]).map Int8.toUInt8 =
      s.output ++ [s.console.incoming.toUInt8]
    rw [List.map_append, echoed]
    exact congrArg (· ++ _) (List.append_nil _)
  | @put ch pt free =>
    rw [Ends, pt] at ends
    rw [pt] at echoed awaited granted
    rw [free] at busy
    refine ⟨hholds, granted, ?_, ⟨s.output, rfl, ends⟩, ?_, ?_⟩
    · rw [echoed]
      exact (List.append_nil _).symm
    · exact congrArg (· + 1) busy
    · change s.writes + 1 + s.writeDone = 1
      change s.writes + s.writeDone = 0 at awaited
      omega
  | done pending =>
    have hone : s.writes = 1 := by
      have := Bool.toNat_le s.putBusy
      omega
    refine ⟨hholds, granted, echoed, ends, ?_, ?_⟩
    · change 0 = s.writes - 1
      omega
    · change s.writes - 1 + (s.writeDone + 1) = s.point.awaited
      omega
  | @woken ch pt raised =>
    rw [Ends, pt] at ends
    rw [pt] at echoed awaited granted
    refine ⟨hholds, granted, echoed, ends, busy, ?_⟩
    change s.writes + (s.writeDone - 1) = 0
    change s.writes + s.writeDone = 1 at awaited
    omega
  | @test ch pt =>
    rw [Ends, pt] at ends
    rw [pt] at echoed awaited granted
    obtain ⟨o, houtput, ho⟩ := ends
    by_cases hq : ch = quit.toInt8
    · subst hq
      exact ⟨hholds, granted, echoed, ⟨o, houtput, ho⟩, busy, awaited⟩
    · have hend : quit ∉ s.output := by
        rw [houtput]
        refine fun hmem => (List.mem_append.mp hmem).elim ho fun hmem => hq ?_
        rw [List.mem_singleton.mp hmem, Int8.toInt8_toUInt8]
      rw [if_neg hq]
      exact ⟨hholds, granted, echoed, hend, busy, awaited⟩

/-- In front of a write the display is free. -/
theorem Inv.free (hi : s.Inv bytes) {ch : Int8} (pt : s.point = .putChar ch) :
    s.putBusy = false := by
  have hawaited := hi.awaited
  rw [pt] at hawaited
  exact Bool.toNat_eq_zero.mp (hi.busy.trans (Nat.eq_zero_of_add_eq_zero_right hawaited))

/-- What has been taken is the start of the input. -/
theorem Inv.taken (hi : s.Inv bytes) : ∃ rest, bytes = s.output ++ s.point.owed ++ rest ∧
    (s.console.credit = 0 → rest = s.console.input) := by
  have hback : ∀ taken : List UInt8, (taken.map UInt8.toInt8).map Int8.toUInt8 = taken := by
    intro taken
    rw [List.map_map]
    exact List.map_id'' (fun c => c.toUInt8_toInt8) taken
  rw [← hi.echoed]
  cases hi.holds with
  | empty taken returned _ _ all =>
    rw [returned, hback]
    exact ⟨s.console.input, all.symm, fun _ => rfl⟩
  | full taken c returned _ one all _ =>
    rw [returned, hback]
    exact ⟨c :: s.console.input, all.symm, fun hnone => by rw [one] at hnone; cases hnone⟩

theorem Inv.output (hi : s.Inv bytes) :
    s.output <+: echo bytes ∧ (s.point = .returned → s.output = echo bytes) := by
  obtain ⟨rest, rfl, -⟩ := hi.taken
  have hends := hi.ends
  unfold Ends at hends
  -- the byte that ends the output comes first in what `echo` has still to write
  have hlast : ∀ {o : List UInt8} {c : UInt8}, s.output = o ++ [c] → quit ∉ o →
      s.output <+: echo (s.output ++ rest) := by
    intro o c houtput ho
    rw [houtput, List.append_assoc, echo_append ho, List.singleton_append]
    refine List.prefix_append_right_inj o |>.mpr ?_
    unfold echo
    split
    · exact List.prefix_rfl
    · exact ⟨_, rfl⟩
  cases pt : s.point with
  | writeP ch | test ch =>
    rw [pt] at hends
    obtain ⟨o, houtput, ho⟩ := hends
    rw [List.append_assoc]
    exact ⟨hlast houtput ho, fun h => by cases h⟩
  | returned =>
    rw [pt] at hends
    obtain ⟨o, houtput, ho⟩ := hends
    rw [List.append_assoc]
    refine ⟨hlast houtput ho, fun _ => ?_⟩
    change s.output = echo (s.output ++ rest)
    rw [houtput, List.append_assoc, echo_append ho, List.singleton_append]
    exact congrArg (o ++ ·) (if_pos rfl).symm
  | readP | getChar | putChar ch =>
    rw [pt] at hends
    rw [List.append_assoc, echo_append hends]
    exact ⟨List.prefix_append _ _, fun h => by cases h⟩

/-- The display is free when the thread writes, and a poll fails at the end of the file
only. -/
theorem Inv.stop (hi : s.Inv bytes) {e : Event} {f : Stop} (h : s.step e = .error f) :
    f = .fault .disabled ∨ f = .fault (.assertion .read) ∧ s.console.input = [] := by
  cases e with
  | checkCharAvail ready =>
    obtain ⟨g, hg, rfl⟩ := input_eq_error h
    unfold Console.checkCharAvail Console.receive at hg
    split at hg
    · cases hg
    · split at hg
      · rename_i hnil
        cases hg
        exact .inr ⟨rfl, hnil⟩
      · cases hg
  | consoleWriteDone => exact .inl (ite_error_eq_error h)
  | advance =>
    refine .inl ?_
    unfold step advance at h
    dsimp only at h
    split at h
    · obtain ⟨g, hg, rfl⟩ := input_eq_error (bind_ok_eq_error h)
      rw [ite_error_eq_error hg]
    · obtain ⟨g, hg, rfl⟩ := input_eq_error (bind_ok_eq_error h)
      rw [ite_error_eq_error hg]
    · rename_i ch pt
      have hput := bind_ok_eq_error h
      rw [putChar, if_pos (hi.free pt)] at hput
      cases hput
    · exact ite_error_eq_error (bind_ok_eq_error h)
    · cases h
    · cases h
      rfl

/-! ## Progress -/

/-- How many steps are left, if the device does not poll for nothing. -/
def Point.steps : Point → Nat
  | .readP | .returned => 0
  | .getChar => 5
  | .putChar _ => 4
  | .writeP _ => 2
  | .test _ => 1

def measure (s : ConsoleTest) : Nat :=
  7 * s.console.input.length + 6 * s.console.readAvail + s.writes + s.point.steps

theorem Moves.measure_lt (h : Moves s s') : s'.measure < s.measure := by
  cases h with
  | receive _ next =>
    simp only [measure, next, List.length_cons]
    omega
  | done pending =>
    simp only [measure]
    omega
  | grant pt _ _ | take pt _ | put pt _ | woken pt _ =>
    simp only [measure, pt, Point.steps]
    omega
  | test pt =>
    simp only [measure, pt]
    split <;> simp only [Point.steps] <;> omega

/-- Until the test returns there is something to do. -/
theorem Inv.progress (hi : s.Inv bytes) (hq : quit ∈ bytes) (hpt : s.point ≠ .returned) :
    ∃ s', Moves s s' := by
  have hends := hi.ends
  have hgranted := hi.granted
  have hawaited := hi.awaited
  unfold Ends at hends
  cases pt : s.point with
  | readP =>
    rw [pt] at hends hgranted
    by_cases raised : 0 < s.console.readAvail
    · exact ⟨_, .grant pt hgranted raised⟩
    · have hnone : s.console.credit = 0 := by
        rw [Console.credit, hgranted]
        exact Nat.eq_zero_of_not_pos raised
      -- what is left is in the file, and there is a `q` in it
      obtain ⟨rest, hbytes, hrest⟩ := hi.taken
      rw [pt, hrest hnone] at hbytes
      have hinput : quit ∈ s.console.input := by
        rw [hbytes, List.append_assoc] at hq
        exact (List.mem_append.mp hq).resolve_left hends
      cases hi.holds with
      | empty _ _ buffer _ _ =>
        cases next : s.console.input with
        | nil =>
          rw [next] at hinput
          cases hinput
        | cons c rest => exact ⟨_, .receive (by rw [buffer]; rfl) next⟩
      | full _ _ _ _ one _ _ =>
        rw [hnone] at one
        cases one
  | getChar => exact ⟨_, .take pt (by rw [hgranted, pt]; rfl)⟩
  | putChar ch => exact ⟨_, .put pt (hi.free pt)⟩
  | writeP ch =>
    rw [pt] at hawaited
    by_cases pending : 0 < s.writes
    · exact ⟨_, .done pending⟩
    · have raised : 0 < s.writeDone := by
        change s.writes + s.writeDone = 1 at hawaited
        omega
      exact ⟨_, .woken pt raised⟩
  | test ch => exact ⟨_, .test pt⟩
  | returned => exact absurd pt hpt

theorem run_inv (clean : 255 ∉ bytes.dropLast) {es : List Event}
    (run : Run step (new bytes) es s) : s.Inv bytes :=
  run.inv (fun _ _ _ hi h => (step_moves h).elim (fun heq => heq ▸ hi) fun hm => hm.inv clean hi)
    (new_inv bytes)

/-- Every step that does something brings the end nearer. -/
theorem length_add_measure_le {es : List Event} (run : Run step s es s')
    (busy : Guarded step (fun s e => s.step e ≠ .ok s) s es) :
    es.length + s'.measure ≤ s.measure := by
  induction run with
  | nil => exact Nat.le_of_eq (Nat.zero_add _)
  | cons hs _ ih =>
    have hlt := ((step_moves hs).resolve_left fun heq => busy.1 (heq ▸ hs)).measure_lt
    have hle := ih (busy.2 _ hs)
    rw [List.length_cons]
    omega

/-- The test writes the input up to the first `q`, and nothing else, if there is no byte
255 in front of another one: the display is never written to while it is busy, and nothing
fails but a read at the end of the file. It does so to the end: as long as there is a `q`
to come, some step other than a poll for nothing can be made, and there are no more than
seven of these a byte. -/
theorem console_echoes {es : List Event} (clean : 255 ∉ bytes.dropLast)
    (run : Run step (new bytes) es s) :
    s.output <+: echo bytes ∧ (s.point = .returned → s.output = echo bytes) ∧
    (∀ e f, s.step e = .error f →
      f = .fault .disabled ∨ f = .fault (.assertion .read) ∧ s.console.input = []) ∧
    (quit ∈ bytes → s.point ≠ .returned → ∃ e s', s.step e = .ok s' ∧ s' ≠ s) ∧
    (Guarded step (fun s e => s.step e ≠ .ok s) (new bytes) es →
      es.length ≤ 7 * bytes.length) := by
  have hi := run_inv clean run
  refine ⟨hi.output.1, hi.output.2, fun e f => hi.stop, fun hq hpt => ?_, fun busy => ?_⟩
  · obtain ⟨s', hm⟩ := hi.progress hq hpt
    obtain ⟨e, hs⟩ := hm.step
    exact ⟨e, s', hs, fun heq => Nat.lt_irrefl _ (heq ▸ hm.measure_lt)⟩
  · exact Nat.le_trans (Nat.le_add_right _ _) (length_add_measure_le run busy)

/-- The letters a and q are typed, and then b, which is read and stays in the buffer. -/
def typed : List Event :=
  [.checkCharAvail true, .advance, .advance, .checkCharAvail true, .advance, .consoleWriteDone,
   .advance, .advance, .advance, .advance, .checkCharAvail true, .advance, .consoleWriteDone,
   .advance, .advance]

theorem console_echoes_typed : ∃ s, Run step (new [97, 113, 98]) typed s ∧
    s.point = .returned ∧ s.output = [97, 113] := by
  have hcontinues : continues step (new [97, 113, 98]) typed
      (fun s => decide (s.point = .returned)) = true := by decide
  obtain ⟨s, run, hpt⟩ := continues_iff.mp hcontinues
  have hreturned : s.point = .returned := of_decide_eq_true hpt
  exact ⟨s, run, hreturned, (console_echoes (by decide) run).2.1 hreturned⟩

end ConsoleTest
end Nachos

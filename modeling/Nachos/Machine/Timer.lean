import Nachos.Machine.Interrupt

/-! The timer device (timer.h, timer.cc), and the handler that time slicing gives it
(system.cc). The timer has one interrupt pending at all times: its handler schedules
the next one, and then asks for a context switch. So the thread that runs is asked to
yield before long, whatever the other devices do. -/

namespace Nachos
open Lib

/-- The average time between two interrupts. -/
abbrev timerTicks : Int := 100

/-- A `Timer` object: `address` is where it lies, and `entry` the address of the static
function `TimerHandler`, which calls `TimerExpired` on the object. -/
structure Timer where
  entry : Nat
  address : Int
  randomize : Bool
  handler : Int → Interrupt → Except Fault Interrupt
  arg : Int

namespace Timer
open Interrupt

/-- `TimeOfNextInterrupt`; `random` is what `Random` returns. -/
def timeOfNextInterrupt (t : Timer) (random : Nat) : Int :=
  if t.randomize then 1 + (random : Int) % (timerTicks * 2) else timerTicks

def request (t : Timer) (random : Nat) : Interrupt.Request :=
  ⟨t.entry, t.address, t.timeOfNextInterrupt random, .timerInt⟩

/-- What the constructor does once it has set the fields. -/
def new (t : Timer) (s : Interrupt) (random : Nat) : Except Fault Interrupt :=
  s.schedule (t.request random)

def timerExpired (t : Timer) (s : Interrupt) (random : Nat) : Except Fault Interrupt := do
  let s ← s.schedule (t.request random)
  t.handler t.arg s

/-- `TimerInterruptHandler` of system.cc. -/
def timerInterruptHandler (_dummy : Int) (s : Interrupt) : Except Fault Interrupt :=
  if s.status ≠ .idleMode then s.setYieldOnReturn else .ok s

/-- The timer that `Initialize` makes for time slicing. -/
def slicing (entry : Nat) (address : Int) (randomYield : Bool) : Timer :=
  ⟨entry, address, randomYield, timerInterruptHandler, 0⟩

/-- The longest time between two interrupts. -/
def period (t : Timer) : Int := if t.randomize then timerTicks * 2 else timerTicks

theorem timeOfNextInterrupt_bounds (t : Timer) (random : Nat) :
    0 < t.timeOfNextInterrupt random ∧ t.timeOfNextInterrupt random ≤ t.period := by
  unfold timeOfNextInterrupt period timerTicks
  split <;> omega

end Timer

namespace Interrupt

/-- The times for which the timer has interrupts pending. -/
def timers (s : Interrupt) : List Int :=
  (s.pending.filter fun x => x.2.type = .timerInt).map Prod.fst

/-- The interrupt that `CheckIfDue` calls next. -/
def nextCall (s : Interrupt) (advanceClock : Bool) : Option PendingInterrupt :=
  match s.pending with
  | [] => none
  | (when, toOccur) :: rest =>
    if (advanceClock ∨ when ≤ s.totalTicks) ∧
      ¬ (s.status = .idleMode ∧ toOccur.type = .timerInt ∧ rest = []) then some toOccur
    else none

/-- The call that `CheckIfDue` makes, with the handler's reaction, and those that `next`
finds behind it. -/
def callsOf (s : Interrupt) (advanceClock : Bool) (r : Reaction)
    (next : Interrupt → List (PendingInterrupt × Reaction)) : List (PendingInterrupt × Reaction) :=
  match s.nextCall advanceClock with
  | none => []
  | some x => (x, r) :: match s.checkIfDue advanceClock r with
    | .ok (true, s') => next s'
    | _ => []

/-- The calls of `whileDue`. -/
def loopCalls (react : Nat → Reaction) :
    Nat → Nat → Interrupt → List (PendingInterrupt × Reaction)
  | 0, _, _ => []
  | fuel + 1, i, s => s.callsOf false (react i) (loopCalls react fuel (i + 1))

def tickCalls (s : Interrupt) (fuel : Nat) (react : Nat → Reaction) :
    List (PendingInterrupt × Reaction) :=
  loopCalls react fuel 0 { s with totalTicks := s.totalTicks + s.tick, level := .intOff }

/-- The handlers that a step calls, with their reactions. -/
def stepCalls (s : Interrupt) : Step → List (PendingInterrupt × Reaction)
  | .oneTick fuel react => s.tickCalls fuel react
  | .idle fuel react =>
    { s with status := .idleMode }.callsOf true (react 0) (loopCalls react fuel 1)
  | .setLevel now fuel react =>
    if now = .intOn ∧ s.level = .intOff then { s with level := now }.tickCalls fuel react else []
  | .schedule _ | .setStatus _ => []

/-- `OneTick` ends in a `Yield`. -/
def TickYields (s : Interrupt) (fuel : Nat) (react : Nat → Reaction) : Prop :=
  ∃ s', whileDue react fuel 0 { s with totalTicks := s.totalTicks + s.tick, level := .intOff } =
    .ok s' ∧ s'.yieldOnReturn = true

/-- The step makes the thread that runs yield. -/
def Yields (s : Interrupt) : Step → Prop
  | .oneTick fuel react => s.TickYields fuel react
  | .setLevel now fuel react =>
    now = .intOn ∧ s.level = .intOff ∧ { s with level := now }.TickYields fuel react
  | _ => False

end Interrupt

namespace Timer
open Interrupt

variable {t : Timer} {s s' : Interrupt} {w w' now : Int} {r : Reaction} {x : PendingInterrupt}

/-- The handler of the timer is `TimerExpired`; the other handlers do not schedule
interrupts of the timer. -/
def Reacts (t : Timer) (x : PendingInterrupt) (r : Reaction) : Prop :=
  if x.type = .timerInt then
    ∃ random, ∀ u : Interrupt, u.status = .systemMode → t.timerExpired u random = u.handle r
  else ∀ q ∈ r.requests, q.type ≠ .timerInt

/-- Outside of handlers nothing but the constructor schedules interrupts of the timer, and
only `Idle` makes the machine idle. -/
def Allows : Step → Prop
  | .schedule q => q.type ≠ .timerInt
  | .setStatus st => st ≠ .idleMode
  | _ => True

def Obeys (t : Timer) (s : Interrupt) (e : Step) : Prop :=
  Allows e ∧ ∀ c ∈ s.stepCalls e, t.Reacts c.1 c.2

/-! ## What the handlers do to the timer -/

theorem schedule_timers {q : Interrupt.Request} (h : s.schedule q = .ok s') :
    s'.timers.Perm ((if q.type = .timerInt then [s.totalTicks + q.fromNow] else []) ++ s.timers) ∧
      s'.yieldOnReturn = s.yieldOnReturn ∧ s'.status = s.status := by
  obtain ⟨when, hwhen, h⟩ := bind_eq_ok.mp h
  obtain ⟨-, rfl⟩ := cInt_eq_ok.mp hwhen
  obtain ⟨-, h⟩ := ite_error_eq_ok.mp h
  cases h
  refine ⟨?_, rfl, rfl⟩
  refine (((sortedInsert_perm _ _ _).filter _).map _).trans (List.Perm.of_eq ?_)
  rw [List.filter_cons]
  split
  · rename_i ht
    rw [if_pos (of_decide_eq_true ht)]
    rfl
  · rename_i ht
    rw [if_neg fun h => ht (decide_eq_true h)]
    rfl

theorem schedules_timers {qs : List Interrupt.Request} (hqs : ∀ q ∈ qs, q.type ≠ .timerInt)
    (h : qs.foldlM schedule s = .ok s') :
    s'.timers.Perm s.timers ∧ s'.yieldOnReturn = s.yieldOnReturn ∧ s'.status = s.status := by
  induction qs generalizing s with
  | nil =>
    cases h
    exact ⟨.refl _, rfl, rfl⟩
  | cons q qs ih =>
    rw [List.foldlM_cons] at h
    obtain ⟨s1, h1, h⟩ := bind_eq_ok.mp h
    obtain ⟨htimers, hyield, hstatus⟩ := schedule_timers h1
    rw [if_neg (hqs q List.mem_cons_self), List.nil_append] at htimers
    obtain ⟨htimers', hyield', hstatus'⟩ := ih (fun q hq => hqs q (List.mem_cons_of_mem _ hq)) h
    exact ⟨htimers'.trans htimers, hyield'.trans hyield, hstatus'.trans hstatus⟩

/-- The timer has not been called, or it has been called `now` and will be again. -/
inductive Slice (t : Timer) (now : Int) (s s' : Interrupt) (w w' : Int) : Prop
  | waiting (same : w' = w) (keeps : s.yieldOnReturn = true → s'.yieldOnReturn = true)
  | expired (later : now < w') (soon : w' ≤ now + t.period) (yields : s'.yieldOnReturn = true)

theorem Slice.trans {s1 : Interrupt} {w1 : Int} (h : t.Slice now s s1 w w1)
    (h' : t.Slice now s1 s' w1 w') : t.Slice now s s' w w' := by
  cases h' with
  | expired later soon yields => exact .expired later soon yields
  | waiting same keeps =>
    subst same
    cases h with
    | waiting same' keeps' => exact .waiting same' fun hy => keeps (keeps' hy)
    | expired later soon yields => exact .expired later soon (keeps yields)

/-- `TimerExpired` is called in system mode, and so always asks for the switch. -/
theorem timerExpired_spec (hslice : t.handler = timerInterruptHandler) {random : Nat}
    (hs : s.status = .systemMode) (h : t.timerExpired s random = .ok s') :
    s'.timers.Perm ((s.totalTicks + t.timeOfNextInterrupt random) :: s.timers) ∧
      s'.yieldOnReturn = true := by
  obtain ⟨s1, h1, h⟩ := bind_eq_ok.mp h
  obtain ⟨htimers, -, hstatus⟩ := schedule_timers h1
  have hbusy : s1.status ≠ .idleMode := by
    rw [hstatus, hs]
    exact MachineStatus.noConfusion
  rw [hslice, timerInterruptHandler, if_pos hbusy] at h
  obtain ⟨-, h⟩ := ite_error_eq_ok.mp h
  cases h
  exact ⟨htimers, rfl⟩

/-- The timers left when the first interrupt is taken off the list. -/
theorem timers_rest {rest : List (Int × PendingInterrupt)} {when : Int}
    (first : s.pending = (when, x) :: rest) (hone : s.timers = [w]) :
    timers { s with pending := rest } = if x.type = .timerInt then [] else [w] := by
  rw [timers, first, List.filter_cons] at hone
  split
  · rename_i hx
    rw [if_pos (decide_eq_true hx), List.map_cons] at hone
    exact (List.cons.inj hone).2
  · rename_i hx
    rwa [if_neg fun h => hx (of_decide_eq_true h)] at hone

/-- The call of a handler, on the list that its interrupt has left. -/
theorem invoke_slice (hslice : t.handler = timerInterruptHandler)
    {rest : List (Int × PendingInterrupt)} {when : Int} (hr : t.Reacts x r)
    (hone : s.timers = [w]) (first : s.pending = (when, x) :: rest)
    (h : { s with pending := rest, totalTicks := now }.invoke x r = .ok s') :
    ∃ w', s'.timers = [w'] ∧ t.Slice now s s' w w' := by
  obtain ⟨s1, h1, h⟩ := bind_eq_ok.mp h
  cases h
  have hrest := timers_rest first hone
  unfold Reacts at hr
  split at hr
  · rename_i hx
    obtain ⟨random, hr⟩ := hr
    rw [if_pos hx] at hrest
    rw [← hr _ rfl] at h1
    obtain ⟨htimers, hyield⟩ := timerExpired_spec hslice rfl h1
    obtain ⟨hpos, hle⟩ := t.timeOfNextInterrupt_bounds random
    have hone' : s1.timers = [now + t.timeOfNextInterrupt random] :=
      List.perm_singleton.mp (htimers.trans (List.Perm.of_eq (congrArg (_ :: ·) hrest)))
    exact ⟨_, hone', .expired (by omega) (by omega) hyield⟩
  · rename_i hx
    rw [if_neg hx] at hrest
    obtain ⟨s2, h2, h3⟩ := bind_eq_ok.mp h1
    obtain ⟨htimers, hyield, -⟩ := schedules_timers hr h2
    have hone' : s2.timers = [w] :=
      List.perm_singleton.mp (htimers.trans (List.Perm.of_eq hrest))
    split at h3
    · obtain ⟨-, h3⟩ := ite_error_eq_ok.mp h3
      cases h3
      exact ⟨w, hone', .waiting rfl fun _ => rfl⟩
    · cases h3
      exact ⟨w, hone', .waiting rfl fun hy => hyield.trans hy⟩

/-! ## The loops -/

/-- The call that a successful `CheckIfDue` makes. -/
theorem checkIfDue_invoke {advanceClock : Bool}
    (h : s.checkIfDue advanceClock r = .ok (true, s')) :
    ∃ when x rest, s.pending = (when, x) :: rest ∧ s.nextCall advanceClock = some x ∧
      { s with pending := rest, totalTicks := s.callTime advanceClock }.invoke x r = .ok s' := by
  have hfire : ∀ {u : Interrupt} {x : PendingInterrupt} {when : Int},
      u.fire x when r = .ok (true, s') →
      ¬ (u.status = .idleMode ∧ x.type = .timerInt ∧ u.pending = []) ∧ u.invoke x r = .ok s' := by
    intro u x when h
    unfold fire at h
    split at h
    · cases h
    · rename_i hwait
      obtain ⟨s1, hinvoke, h⟩ := bind_eq_ok.mp h
      cases h
      exact ⟨hwait, hinvoke⟩
  obtain ⟨-, h⟩ := ite_error_left_eq_ok.mp h
  cases first : s.pending with
  | nil =>
    rw [first] at h
    cases h
  | cons y rest =>
    obtain ⟨when, x⟩ := y
    refine ⟨when, x, rest, rfl, ?_⟩
    unfold callTime nextCall
    rw [first] at h ⊢
    dsimp only at h ⊢
    split at h
    · rename_i hadvance
      obtain ⟨hwait, hinvoke⟩ := hfire h
      rw [if_pos hadvance, if_pos ⟨.inl hadvance.1, hwait⟩]
      exact ⟨rfl, hinvoke⟩
    · rename_i hadvance
      rw [if_neg hadvance]
      split at h
      · cases h
      · rename_i hdue
        obtain ⟨hwait, hinvoke⟩ := hfire h
        rw [if_pos ⟨.inr (Int.not_lt.mp hdue), hwait⟩]
        exact ⟨rfl, hinvoke⟩

theorem callsOf_all {advanceClock : Bool} {next : Interrupt → List (PendingInterrupt × Reaction)}
    {P : PendingInterrupt × Reaction → Prop} (h : ∀ c ∈ s.callsOf advanceClock r next, P c) :
    (∀ x, s.nextCall advanceClock = some x → P (x, r)) ∧
      ∀ s', s.checkIfDue advanceClock r = .ok (true, s') → ∀ c ∈ next s', P c := by
  unfold callsOf at h
  constructor
  · intro x hx
    rw [hx] at h
    exact h _ List.mem_cons_self
  · intro s' hcheck c hc
    obtain ⟨when, x, rest, -, hx, -⟩ := checkIfDue_invoke hcheck
    rw [hx, hcheck] at h
    exact h c (List.mem_cons_of_mem _ hc)

theorem invoke_keeps (h : s.invoke x r = .ok s') :
    s'.totalTicks = s.totalTicks ∧ s'.status = s.status := by
  obtain ⟨s1, h1, h⟩ := bind_eq_ok.mp h
  cases h
  exact ⟨(handle_keeps h1).totalTicks, rfl⟩

theorem checkIfDue_slice (hslice : t.handler = timerInterruptHandler) {advanceClock : Bool}
    (h : s.checkIfDue advanceClock r = .ok (true, s'))
    (hr : ∀ x, s.nextCall advanceClock = some x → t.Reacts x r) (hone : s.timers = [w]) :
    ∃ w', s'.timers = [w'] ∧ t.Slice (s.callTime advanceClock) s s' w w' ∧
      s'.totalTicks = s.callTime advanceClock ∧ s'.status = s.status := by
  obtain ⟨when, x, rest, first, hcall, hinvoke⟩ := checkIfDue_invoke h
  obtain ⟨w', hone', hs⟩ := invoke_slice hslice (hr x hcall) hone first hinvoke
  obtain ⟨hticks, hstatus⟩ := invoke_keeps hinvoke
  exact ⟨w', hone', hs, hticks, hstatus⟩

/-- The loop ends when nothing is due, or when the machine is idle and only the timer is
left. -/
theorem checkIfDue_end (hi : s.Inv) (h : s.checkIfDue false r = .ok (false, s')) :
    s'.timers.Perm s.timers ∧ s'.yieldOnReturn = s.yieldOnReturn ∧
      s'.totalTicks = s.totalTicks ∧ s'.status = s.status ∧
      (s.status ≠ .idleMode → ∀ y ∈ s.pending, s.totalTicks < y.1) := by
  obtain ⟨-, h⟩ := ite_error_left_eq_ok.mp h
  split at h
  · rename_i hnil
    cases h
    exact ⟨.refl _, rfl, rfl, rfl, fun _ y hy => absurd (hnil ▸ hy) List.not_mem_nil⟩
  · rename_i when x rest first
    have hback : (timers { s with pending := sortedInsert x when rest }).Perm s.timers := by
      refine ((sortedInsert_perm x when rest).filter _).map _ |>.trans (List.Perm.of_eq ?_)
      rw [timers, first]
    rw [if_neg fun h => Bool.false_ne_true h.1] at h
    split at h
    · rename_i hlate
      cases h
      refine ⟨hback, rfl, rfl, rfl, fun _ y hy => ?_⟩
      rw [first] at hy
      rcases List.mem_cons.mp hy with rfl | hy
      · exact hlate
      · exact Int.lt_of_lt_of_le hlate ((first ▸ hi.sorted).head_le hy)
    · unfold fire at h
      split at h
      · rename_i hwait
        cases h
        exact ⟨hback, rfl, rfl, rfl, fun hbusy => absurd hwait.1 hbusy⟩
      · obtain ⟨s1, -, h⟩ := bind_eq_ok.mp h
        cases h

theorem mem_timers (h : w ∈ s.timers) : ∃ x, (w, x) ∈ s.pending := by
  obtain ⟨⟨when, x⟩, hx, rfl⟩ := List.mem_map.mp h
  exact ⟨x, List.mem_of_mem_filter hx⟩

theorem whileDue_slice (hslice : t.handler = timerInterruptHandler) {react : Nat → Reaction}
    {fuel i : Nat} (hi : s.Inv) (ho : ∀ c ∈ loopCalls react fuel i s, t.Reacts c.1 c.2)
    (hone : s.timers = [w]) (h : whileDue react fuel i s = .ok s') :
    ∃ w', s'.timers = [w'] ∧ t.Slice s.totalTicks s s' w w' ∧ s'.totalTicks = s.totalTicks ∧
      s'.status = s.status ∧ (s.status ≠ .idleMode → s.totalTicks < w') := by
  induction fuel generalizing i s w with
  | zero => cases h
  | succ fuel ih =>
    obtain ⟨⟨b, s1⟩, hcheck, h⟩ := bind_eq_ok.mp h
    cases b with
    | false =>
      cases h
      obtain ⟨htimers, hyield, hticks, hstatus, hlate⟩ := checkIfDue_end hi hcheck
      obtain ⟨x, hx⟩ := mem_timers (s := s) (w := w) (by rw [hone]; exact List.mem_singleton_self w)
      exact ⟨w, List.perm_singleton.mp (hone ▸ htimers), .waiting rfl fun hy => hyield.trans hy,
        hticks, hstatus, fun hbusy => hlate hbusy _ hx⟩
    | true =>
      obtain ⟨hfirst, hnext⟩ := callsOf_all ho
      obtain ⟨w1, hone1, hs1, hticks1, hstatus1⟩ := checkIfDue_slice hslice hcheck hfirst hone
      rw [callTime_false] at hs1 hticks1
      obtain ⟨w', hone', hs, hticks, hstatus, hlate⟩ :=
        ih ((checkIfDue_evolves hcheck).inv hi) (hnext s1 hcheck) hone1 h
      rw [hticks1] at hs hticks hlate
      rw [hstatus1] at hstatus hlate
      exact ⟨w', hone', hs1.trans hs, hticks, hstatus, hlate⟩

/-! ## Runs -/

/-- The timer is due at `w`, within a period; and the machine is not idle. -/
structure Timed (t : Timer) (s : Interrupt) (w : Int) : Prop where
  inv : s.Inv
  busy : s.status ≠ .idleMode
  one : s.timers = [w]
  soon : w ≤ s.totalTicks + t.period

theorem inv_of_core (hi : s.Inv) (same : s'.core = s.core) : s'.Inv :=
  (Evolves.control same).inv hi

theorem Slice.soon {m : Interrupt} (h : t.Slice now s m w w') (hle : s.totalTicks ≤ now)
    (hw : w ≤ s.totalTicks + t.period) : w' ≤ now + t.period := by
  cases h with
  | waiting same _ => omega
  | expired _ soon _ => exact soon

/-- A tick that does not yield leaves the timer where it is, and not yet due. -/
theorem oneTick_timed (hslice : t.handler = timerInterruptHandler) {fuel : Nat}
    {react : Nat → Reaction} (ht : t.Timed s w)
    (ho : ∀ c ∈ s.tickCalls fuel react, t.Reacts c.1 c.2) (h : s.oneTick fuel react = .ok s') :
    ∃ w', t.Timed s' w' ∧ (¬ s.TickYields fuel react → w' = w ∧ s'.totalTicks < w) := by
  have hevolves := oneTick_evolves h
  obtain ⟨now, hnow, h⟩ := bind_eq_ok.mp h
  obtain ⟨-, rfl⟩ := cInt_eq_ok.mp hnow
  obtain ⟨s1, hloop, h⟩ := bind_eq_ok.mp h
  cases h
  have hlater : s.totalTicks ≤ s.totalTicks + s.tick := by
    unfold tick systemTick userTick
    split <;> omega
  have hi : Inv { s with totalTicks := s.totalTicks + s.tick, level := .intOff } :=
    inv_of_core ((Moves.pass hlater).inv ht.inv) rfl
  obtain ⟨w', hone, hs, hticks, hstatus, hlate⟩ := whileDue_slice hslice hi ho ht.one hloop
  have hend : s1.endTick.pending = s1.pending ∧ s1.endTick.totalTicks = s1.totalTicks ∧
      s1.endTick.status ≠ .idleMode := by
    unfold endTick
    split
    · exact ⟨rfl, rfl, MachineStatus.noConfusion⟩
    · exact ⟨rfl, rfl, hstatus ▸ ht.busy⟩
  obtain ⟨hpending, hticks', hbusy⟩ := hend
  refine ⟨w', ⟨hevolves.inv ht.inv, hbusy, ?_, ?_⟩, fun hno => ?_⟩
  · rw [timers, hpending]
    exact hone
  · rw [hticks', hticks]
    exact hs.soon (Int.le_refl _) (Int.le_trans ht.soon (Int.add_le_add_right hlater _))
  · cases hs with
    | expired _ _ yields => exact absurd ⟨s1, hloop, yields⟩ hno
    | waiting same _ =>
      subst same
      rw [hticks', hticks]
      exact ⟨rfl, hlate ht.busy⟩

/-- `Idle` may leave a timer that is due already, if it is all there is left. -/
theorem idle_timed (hslice : t.handler = timerInterruptHandler) {fuel : Nat}
    {react : Nat → Reaction} (ht : t.Timed s w) (ho : t.Obeys s (.idle fuel react))
    (h : s.idle fuel react = .ok s') : ∃ w', t.Timed s' w' := by
  have hevolves := step_evolves (e := .idle fuel react) h
  obtain ⟨⟨b, s1⟩, hcheck, h⟩ := bind_eq_ok.mp h
  obtain ⟨hb, h⟩ := ite_error_eq_ok.mp h
  obtain rfl : b = true := hb
  obtain ⟨s2, hloop, h⟩ := bind_eq_ok.mp h
  cases h
  have hidle : Inv { s with status := .idleMode } := inv_of_core ht.inv rfl
  obtain ⟨hfirst, hnext⟩ := callsOf_all ho.2
  obtain ⟨w1, hone1, hs1, hticks1, -⟩ := checkIfDue_slice hslice hcheck hfirst ht.one
  obtain ⟨w2, hone2, hs2, hticks2, -⟩ :=
    whileDue_slice hslice ((checkIfDue_evolves hcheck).inv hidle) (hnext s1 hcheck) hone1 hloop
  have hle : s.totalTicks ≤ s1.totalTicks := (checkIfDue_evolves hcheck).totalTicks_le
  rw [← hticks1] at hs1
  refine ⟨w2, hevolves.inv ht.inv, MachineStatus.noConfusion, hone2, ?_⟩
  change w2 ≤ s2.totalTicks + t.period
  rw [hticks2]
  exact (hs1.trans hs2).soon hle ht.soon

/-- The step takes the processor from the thread that runs, or finds that none does. -/
def Switches (s : Interrupt) (e : Step) : Prop :=
  s.Yields e ∨ ∃ fuel react, e = .idle fuel react

theorem step_timed (hslice : t.handler = timerInterruptHandler) {e : Step} (ht : t.Timed s w)
    (ho : t.Obeys s e) (h : s.step e = .ok s') :
    ∃ w', t.Timed s' w' ∧
      (¬ Switches s e → w' = w ∧ (s'.totalTicks = s.totalTicks ∨ s'.totalTicks < w)) := by
  cases e with
  | schedule q =>
    obtain ⟨htimers, -, hstatus⟩ := schedule_timers h
    have hticks : s'.totalTicks = s.totalTicks := (schedule_keeps h).totalTicks
    rw [if_neg ho.1, List.nil_append, ht.one] at htimers
    exact ⟨w, ⟨(schedule_evolves h).inv ht.inv, hstatus ▸ ht.busy, List.perm_singleton.mp htimers,
      hticks ▸ ht.soon⟩, fun _ => ⟨rfl, .inl hticks⟩⟩
  | oneTick fuel react =>
    obtain ⟨w', ht', hstay⟩ := oneTick_timed hslice ht ho.2 h
    exact ⟨w', ht', fun hno => (hstay fun hy => hno (.inl hy)).imp_right .inr⟩
  | idle fuel react =>
    obtain ⟨w', ht'⟩ := idle_timed hslice ht ho h
    exact ⟨w', ht', fun hno => absurd (.inr ⟨fuel, react, rfl⟩) hno⟩
  | setLevel level fuel react =>
    obtain ⟨-, h⟩ := ite_error_eq_ok.mp h
    have ht1 : t.Timed { s with level := level } w :=
      ⟨inv_of_core ht.inv rfl, ht.busy, ht.one, ht.soon⟩
    split at h
    · rename_i hon
      have hcalls := ho.2
      rw [stepCalls, if_pos hon] at hcalls
      obtain ⟨w', ht', hstay⟩ := oneTick_timed hslice ht1 hcalls h
      exact ⟨w', ht', fun hno =>
        (hstay fun hy => hno (.inl ⟨hon.1, hon.2, hy⟩)).imp_right .inr⟩
    · cases h
      exact ⟨w, ht1, fun _ => ⟨rfl, .inl rfl⟩⟩
  | setStatus st =>
    cases h
    exact ⟨w, ⟨inv_of_core ht.inv rfl, ho.1, ht.one, ht.soon⟩, fun _ => ⟨rfl, .inl rfl⟩⟩

theorem new_timed {random : Nat} (h : t.new Interrupt.new random = .ok s) :
    ∃ w, t.Timed s w := by
  obtain ⟨htimers, -, hstatus⟩ := schedule_timers h
  have hticks : s.totalTicks = 0 := (schedule_keeps h).totalTicks
  have hbound := (t.timeOfNextInterrupt_bounds random).2
  have hone := List.perm_singleton.mp htimers
  refine ⟨_, (schedule_evolves h).inv new_inv, ?_, hone, ?_⟩
  · rw [hstatus]
    exact MachineStatus.noConfusion
  · rw [hticks]
    exact Int.add_le_add_left hbound 0

/-- With time slicing there is at all times exactly one interrupt of the timer pending, due
within a period; and when a period has passed, the thread that ran has been made to yield,
or there was none that could run. -/
theorem time_slices {entry : Nat} {address : Int} {randomYield : Bool} {random : Nat}
    {s₀ s s' : Interrupt} {es es' : List Step}
    (start : (slicing entry address randomYield).new Interrupt.new random = .ok s₀)
    (run : Run step s₀ es s)
    (obeys : Guarded step (slicing entry address randomYield).Obeys s₀ es) :
    (∃ w, s.timers = [w] ∧ w ≤ s.totalTicks + (slicing entry address randomYield).period) ∧
    (Run step s es' s' → Guarded step (slicing entry address randomYield).Obeys s es' →
      s.totalTicks + (slicing entry address randomYield).period ≤ s'.totalTicks →
      ∃ es₁ e es₂ m, es' = es₁ ++ e :: es₂ ∧ Run step s es₁ m ∧ Switches m e) := by
  obtain ⟨w, ht⟩ : ∃ w, (slicing entry address randomYield).Timed s w :=
    run.guarded_inv (I := fun u => ∃ w, (slicing entry address randomYield).Timed u w)
      (fun _ _ _ ⟨_, ht⟩ ho h => (step_timed rfl ht ho h).imp fun _ h' => h'.1) obeys
      (new_timed start)
  refine ⟨⟨w, ht.one, ht.soon⟩, fun run' obeys' elapsed => ?_⟩
  -- until the switch the timer stays at `w`, and the clock before it once it has moved
  have huntil := run'.until
    (I := fun u => (slicing entry address randomYield).Timed u w ∧
      (u.totalTicks = s.totalTicks ∨ u.totalTicks < w))
    (Q := fun m e => ¬ (slicing entry address randomYield).Obeys m e ∨ Switches m e)
    (fun u e u' hu hQ h => by
      obtain ⟨ho, hno⟩ := not_or.mp hQ
      obtain ⟨w', ht', hstay⟩ := step_timed rfl hu.1 (not_not.mp ho) h
      obtain ⟨rfl, hclock⟩ := hstay hno
      refine ⟨ht', hclock.elim (fun hsame => ?_) .inr⟩
      rw [hsame]
      exact hu.2)
    ⟨ht, .inl rfl⟩
  rcases huntil with ⟨-, hclock⟩ | ⟨es₁, e, es₂, m, rfl, hm, hQ⟩
  · have hpos : 0 < (slicing entry address randomYield).period := by
      unfold period timerTicks
      split <;> omega
    have := ht.soon
    omega
  · exact ⟨es₁, e, es₂, m, rfl, hm, hQ.resolve_left (not_not_intro (obeys'.drop hm).1)⟩

/-- A reaction of the timer for time slicing. -/
theorem slicing_reacts {entry random : Nat} {address : Int} {randomYield : Bool}
    (hx : x.type = .timerInt) : (slicing entry address randomYield).Reacts x
      ⟨[(slicing entry address randomYield).request random], true⟩ := by
  refine (if_pos hx).mpr ⟨random, fun u hu => ?_⟩
  rw [timerExpired, handle, List.foldlM_cons]
  cases h1 : u.schedule ((slicing entry address randomYield).request random) with
  | error e => rfl
  | ok u1 =>
    have hstatus : u1.status = .systemMode := (schedule_timers h1).2.2.trans hu
    exact if_pos (hstatus ▸ MachineStatus.noConfusion)

theorem loopCalls_reaction {fuel i : Nat} {c : PendingInterrupt × Reaction}
    (hc : c ∈ loopCalls (fun _ => r) fuel i s) : c.2 = r := by
  induction fuel generalizing i s with
  | zero => cases hc
  | succ fuel ih =>
    unfold loopCalls callsOf at hc
    split at hc
    · cases hc
    · rcases List.mem_cons.mp hc with rfl | hc
      · rfl
      · split at hc
        · exact ih hc
        · cases hc

/-- A thread that computes for 200 ticks, while the timer takes 100 ticks each time. -/
def longTicks : List Step :=
  .replicate 20 (.oneTick 2 fun _ => ⟨[(slicing 0 0 true).request 99], true⟩)

theorem time_slices_long : ∃ s₀ s', (slicing 0 0 true).new Interrupt.new 99 = .ok s₀ ∧
    Run step s₀ longTicks s' ∧ s'.totalTicks = 200 ∧
    ∃ es₁ e es₂ m, longTicks = es₁ ++ e :: es₂ ∧ Run step s₀ es₁ m ∧ Switches m e := by
  have hnew : ((slicing 0 0 true).new Interrupt.new 99).toOption.any (fun s₀ =>
      continues step s₀ longTicks (fun s => decide (s.totalTicks = 200)) &&
      guards step (fun s e => (s.stepCalls e).all fun c => c.1.type = .timerInt) s₀ longTicks) =
        true := by
    decide
  obtain ⟨s₀, start, hs⟩ := exists_ok_of_any hnew
  obtain ⟨hrun, hguards⟩ := Bool.and_eq_true_iff.mp hs
  obtain ⟨s', run, hticks⟩ := continues_iff.mp hrun
  have hobeys : Guarded step (slicing 0 0 true).Obeys s₀ longTicks := by
    have hevents : Guarded step (fun _ e => e =
        .oneTick 2 fun _ => ⟨[(slicing 0 0 true).request 99], true⟩) s₀ longTicks :=
      Guarded.of_events fun e he _ => List.eq_of_mem_replicate he
    refine ((guarded_of_guards hguards).and hevents).mono fun s e he => ?_
    obtain ⟨hcalls, rfl⟩ := he
    refine ⟨trivial, fun c hc => ?_⟩
    have htype := of_decide_eq_true (List.all_eq_true.mp hcalls c hc)
    rw [loopCalls_reaction hc]
    exact slicing_reacts htype
  have hticks : s'.totalTicks = 200 := of_decide_eq_true hticks
  have hstart : s₀.totalTicks = 0 := (schedule_keeps start).totalTicks
  refine ⟨s₀, s', start, run, hticks, (time_slices start .nil trivial).2 run hobeys ?_⟩
  rw [hstart, hticks]
  decide

end Timer
end Nachos

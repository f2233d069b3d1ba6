import Nachos.Lib.Run
import Nachos.Lib.SortedList
import Nachos.Threads.Utility

/-! Simulated interrupts and the clock (interrupt.h, interrupt.cc). A handler is
code of a device; what it does to the interrupt system is schedule further
interrupts and ask for a context switch, and which of that it does may depend on
anything. So every call of a handler comes with the reaction it has. Besides the
variables of the source the state keeps a record, which nothing reads: the
interrupts that were scheduled and the calls of handlers, in their order. -/

namespace Nachos
open Lib

inductive IntStatus
  | intOff
  | intOn
  deriving DecidableEq, Repr

inductive MachineStatus
  | idleMode
  | systemMode
  | userMode
  deriving DecidableEq, Repr

inductive IntType
  | timerInt
  | diskInt
  | consoleWriteInt
  | consoleReadInt
  | networkSendInt
  | networkRecvInt
  deriving DecidableEq, Repr

def userTick : Int := 1
def systemTick : Int := 10

/-- A `PendingInterrupt` object; `id` tells the objects apart. -/
structure PendingInterrupt where
  id : Nat
  handler : Nat
  arg : Int
  when : Int
  type : IntType
  deriving DecidableEq, Repr

/-- The arguments of `Schedule`. -/
structure Interrupt.Request where
  handler : Nat
  arg : Int
  fromNow : Int
  type : IntType

/-- What one call of a handler does. -/
structure Interrupt.Reaction where
  requests : List Interrupt.Request
  yields : Bool

/-- A call of a handler, and the time it is made at. -/
structure Interrupt.Call where
  interrupt : PendingInterrupt
  time : Int
  deriving DecidableEq, Repr

structure Interrupt where
  level : IntStatus
  pending : List (Int × PendingInterrupt)
  inHandler : Bool
  yieldOnReturn : Bool
  status : MachineStatus
  totalTicks : Int
  scheduled : List PendingInterrupt
  calls : List Interrupt.Call

namespace Interrupt

/-- `Interrupt::Interrupt`, with the clock at zero. -/
def new : Interrupt where
  level := .intOff
  pending := []
  inHandler := false
  yieldOnReturn := false
  status := .systemMode
  totalTicks := 0
  scheduled := []
  calls := []

def schedule (s : Interrupt) (q : Request) : Except Fault Interrupt := do
  let when ← cInt (s.totalTicks + q.fromNow)
  let toOccur := ⟨s.scheduled.length, q.handler, q.arg, when, q.type⟩
  if 0 < q.fromNow then
    .ok { s with pending := sortedInsert toOccur when s.pending
                 scheduled := s.scheduled ++ [toOccur] }
  else .error (.assertion .schedule)

/-- `Interrupt::YieldOnReturn`. -/
def setYieldOnReturn (s : Interrupt) : Except Fault Interrupt :=
  if s.inHandler then .ok { s with yieldOnReturn := true }
  else .error (.assertion .yieldInHandler)

/-- The code of a handler, as far as the interrupt system goes. -/
def handle (s : Interrupt) (r : Reaction) : Except Fault Interrupt := do
  let s ← r.requests.foldlM schedule s
  if r.yields then s.setYieldOnReturn else .ok s

/-- The call of a handler in `CheckIfDue`. -/
def invoke (s : Interrupt) (toOccur : PendingInterrupt) (r : Reaction) :
    Except Fault Interrupt := do
  let old := s.status
  let s ← { s with inHandler := true, status := .systemMode
                   calls := s.calls ++ [Call.mk toOccur s.totalTicks] }.handle r
  .ok { s with status := old, inHandler := false }

/-- `CheckIfDue` for an interrupt that has been taken off the list, at its time. -/
def fire (s : Interrupt) (toOccur : PendingInterrupt) (when : Int) (r : Reaction) :
    Except Fault (Bool × Interrupt) :=
  -- a timer that is all there is left to wait for goes back
  if s.status = .idleMode ∧ toOccur.type = .timerInt ∧ s.pending = [] then
    .ok (false, { s with pending := sortedInsert toOccur when s.pending })
  else do
    let s ← s.invoke toOccur r
    .ok (true, s)

def checkIfDue (s : Interrupt) (advanceClock : Bool) (r : Reaction) :
    Except Fault (Bool × Interrupt) :=
  if s.level ≠ .intOff then .error (.assertion .interruptLevel)
  else
    match s.pending with
    | [] => .ok (false, s)
    | (when, toOccur) :: rest =>
      if advanceClock ∧ when > s.totalTicks then
        { s with pending := rest, totalTicks := when }.fire toOccur when r
      else if when > s.totalTicks then
        .ok (false, { s with pending := sortedInsert toOccur when rest })
      else { s with pending := rest }.fire toOccur when r

/-- `while (CheckIfDue(FALSE));` in at most `fuel` rounds, the handlers' reactions
taken from the `i`-th on. -/
def whileDue (react : Nat → Reaction) : Nat → Nat → Interrupt → Except Fault Interrupt
  | 0, _, _ => .error .disabled
  | fuel + 1, i, s => do
    let r ← s.checkIfDue false (react i)
    if r.1 then whileDue react fuel (i + 1) r.2 else .ok r.2

/-- The time that `OneTick` lets pass. -/
def tick (s : Interrupt) : Int := if s.status = .systemMode then systemTick else userTick

/-- The end of `OneTick`: interrupts are enabled again, and the thread yields if a
handler asked for it. -/
def endTick (s : Interrupt) : Interrupt :=
  if s.yieldOnReturn then
    { s with level := .intOn, yieldOnReturn := false, status := .systemMode }
  else { s with level := .intOn }

/-- `OneTick` up to the `Yield` at its end, behind which it only sets the status
back. -/
def oneTick (s : Interrupt) (fuel : Nat) (react : Nat → Reaction) : Except Fault Interrupt := do
  let totalTicks ← cInt (s.totalTicks + s.tick)
  let s ← whileDue react fuel 0 { s with totalTicks := totalTicks, level := .intOff }
  .ok s.endTick

def setLevel (s : Interrupt) (now : IntStatus) (fuel : Nat) (react : Nat → Reaction) :
    Except Fault Interrupt :=
  if now = .intOff ∨ s.inHandler = false then
    if now = .intOn ∧ s.level = .intOff then { s with level := now }.oneTick fuel react
    else .ok { s with level := now }
  else .error (.assertion .enableInHandler)

def idle (s : Interrupt) (fuel : Nat) (react : Nat → Reaction) : Except Fault Interrupt := do
  let r ← { s with status := .idleMode }.checkIfDue true (react 0)
  if r.1 then
    let s ← whileDue react fuel 1 r.2
    .ok { s with yieldOnReturn := false, status := .systemMode }
  else .error .halted

/-- What happens to the interrupt system: devices schedule interrupts, and the
kernel lets time pass. A loop that would need more than `fuel` rounds is not a
possible event. -/
inductive Step
  | schedule (q : Request)
  | oneTick (fuel : Nat) (react : Nat → Reaction)
  | idle (fuel : Nat) (react : Nat → Reaction)
  | setLevel (now : IntStatus) (fuel : Nat) (react : Nat → Reaction)
  | setStatus (st : MachineStatus)

def step (s : Interrupt) : Step → Except Fault Interrupt
  | .schedule q => s.schedule q
  | .oneTick fuel react => s.oneTick fuel react
  | .idle fuel react => s.idle fuel react
  | .setLevel now fuel react => s.setLevel now fuel react
  | .setStatus st => .ok { s with status := st }

/-! ## What can happen -/

/-- The state but for the variables that only steer the control flow. -/
def core (s : Interrupt) : Interrupt :=
  { s with level := .intOff, inHandler := false, yieldOnReturn := false, status := .systemMode }

/-- The single changes that all functions of the interrupt system are made of. -/
inductive Moves : Interrupt → Interrupt → Prop
  | control {s s' : Interrupt} (same : s'.core = s.core) : Moves s s'
  | pass {s : Interrupt} {t : Int} (later : s.totalTicks ≤ t) : Moves s { s with totalTicks := t }
  | schedule {s : Interrupt} {toOccur : PendingInterrupt} (fresh : toOccur.id = s.scheduled.length)
      (ahead : s.totalTicks < toOccur.when) :
      Moves s { s with pending := sortedInsert toOccur toOccur.when s.pending
                       scheduled := s.scheduled ++ [toOccur] }
  | call {s : Interrupt} {when : Int} {toOccur : PendingInterrupt}
      {rest : List (Int × PendingInterrupt)} (first : s.pending = (when, toOccur) :: rest)
      (due : when ≤ s.totalTicks) :
      Moves s { s with pending := rest, calls := s.calls ++ [⟨toOccur, s.totalTicks⟩] }
  | back {s : Interrupt} {when : Int} {toOccur : PendingInterrupt}
      {rest : List (Int × PendingInterrupt)} (first : s.pending = (when, toOccur) :: rest) :
      Moves s { s with pending := sortedInsert toOccur when rest }

/-- Any number of changes. -/
abbrev Evolves : Interrupt → Interrupt → Prop := Relation.ReflTransGen Moves

variable {s s' : Interrupt}

theorem Evolves.control (same : s'.core = s.core) : s.Evolves s' := .single (.control same)

theorem Moves.evolves {s1 : Interrupt} (h : s.Moves s1) (same : s'.core = s1.core) :
    s.Evolves s' :=
  (Relation.ReflTransGen.single h).tail (.control same)

theorem schedule_evolves {q : Request} (h : s.schedule q = .ok s') : s.Evolves s' := by
  obtain ⟨when, hwhen, h⟩ := bind_eq_ok.mp h
  obtain ⟨-, rfl⟩ := cInt_eq_ok.mp hwhen
  obtain ⟨hpos, h⟩ := ite_error_eq_ok.mp h
  cases h
  exact .single (.schedule rfl (by dsimp only; omega))

theorem schedules_evolves {qs : List Request} (h : qs.foldlM schedule s = .ok s') :
    s.Evolves s' := by
  induction qs generalizing s with
  | nil =>
    cases h
    exact .refl
  | cons q qs ih =>
    rw [List.foldlM_cons] at h
    obtain ⟨s1, h1, h⟩ := bind_eq_ok.mp h
    exact (schedule_evolves h1).trans (ih h)

theorem setYieldOnReturn_evolves (h : s.setYieldOnReturn = .ok s') : s.Evolves s' := by
  obtain ⟨-, h⟩ := ite_error_eq_ok.mp h
  cases h
  exact Evolves.control rfl

theorem handle_evolves {r : Reaction} (h : s.handle r = .ok s') : s.Evolves s' := by
  obtain ⟨s1, h1, h⟩ := bind_eq_ok.mp h
  refine (schedules_evolves h1).trans ?_
  split at h
  · exact setYieldOnReturn_evolves h
  · cases h
    exact .refl

/-- `fire` works on an interrupt that has just been taken off the list. -/
theorem fire_evolves {when : Int} {toOccur : PendingInterrupt}
    {rest : List (Int × PendingInterrupt)} {r : Reaction} {b : Bool}
    (first : s.pending = (when, toOccur) :: rest) (due : when ≤ s.totalTicks)
    (h : { s with pending := rest }.fire toOccur when r = .ok (b, s')) : s.Evolves s' := by
  unfold fire at h
  split at h
  · cases h
    exact .single (.back first)
  · obtain ⟨s1, hinvoke, h⟩ := bind_eq_ok.mp h
    cases h
    obtain ⟨s2, h2, hinvoke⟩ := bind_eq_ok.mp hinvoke
    cases hinvoke
    have hcall : s.Evolves { s with
        pending := rest, inHandler := true, status := .systemMode
        calls := s.calls ++ [⟨toOccur, s.totalTicks⟩] } :=
      Moves.evolves (.call first due) rfl
    exact (hcall.trans (handle_evolves h2)).trans (Evolves.control rfl)

theorem checkIfDue_evolves {advanceClock b : Bool} {r : Reaction}
    (h : s.checkIfDue advanceClock r = .ok (b, s')) : s.Evolves s' := by
  obtain ⟨-, h⟩ := ite_error_left_eq_ok.mp h
  split at h
  · cases h
    exact .refl
  · rename_i when toOccur rest first
    split at h
    · rename_i hadvance
      have hpass : s.Evolves { s with totalTicks := when } :=
        .single (.pass (Int.le_of_lt hadvance.2))
      exact hpass.trans (fire_evolves first (Int.le_refl _) h)
    · split at h
      · cases h
        exact .single (.back first)
      · rename_i hdue
        exact fire_evolves first (Int.not_lt.mp hdue) h

theorem whileDue_evolves {react : Nat → Reaction} {fuel i : Nat}
    (h : whileDue react fuel i s = .ok s') : s.Evolves s' := by
  induction fuel generalizing i s with
  | zero => cases h
  | succ fuel ih =>
    obtain ⟨⟨b, s1⟩, hcheck, h⟩ := bind_eq_ok.mp h
    have hone := checkIfDue_evolves hcheck
    split at h
    · exact hone.trans (ih h)
    · cases h
      exact hone

theorem oneTick_evolves {fuel : Nat} {react : Nat → Reaction}
    (h : s.oneTick fuel react = .ok s') : s.Evolves s' := by
  obtain ⟨t, ht, htick⟩ := bind_eq_ok.mp h
  obtain ⟨s1, hloop, hend⟩ := bind_eq_ok.mp htick
  obtain ⟨-, rfl⟩ := cInt_eq_ok.mp ht
  cases hend
  have hlater : s.totalTicks ≤ s.totalTicks + s.tick := by
    unfold tick systemTick userTick
    split <;> omega
  have htick : s.Evolves { s with totalTicks := s.totalTicks + s.tick, level := .intOff } :=
    Moves.evolves (.pass hlater) rfl
  have hend : s1.Evolves s1.endTick := by
    unfold endTick
    split <;> exact Evolves.control rfl
  exact (htick.trans (whileDue_evolves hloop)).trans hend

theorem step_evolves {e : Step} (h : s.step e = .ok s') : s.Evolves s' := by
  cases e with
  | schedule q => exact schedule_evolves h
  | oneTick fuel react => exact oneTick_evolves h
  | idle fuel react =>
    obtain ⟨⟨b, s1⟩, hcheck, h⟩ := bind_eq_ok.mp h
    obtain ⟨-, h⟩ := ite_error_eq_ok.mp h
    obtain ⟨s2, hloop, h⟩ := bind_eq_ok.mp h
    cases h
    have hidle : s.Evolves { s with status := .idleMode } := Evolves.control rfl
    exact ((hidle.trans (checkIfDue_evolves hcheck)).trans (whileDue_evolves hloop)).trans
      (Evolves.control rfl)
  | setLevel now fuel react =>
    obtain ⟨-, h⟩ := ite_error_eq_ok.mp h
    have hlevel : s.Evolves { s with level := now } := Evolves.control rfl
    split at h
    · exact hlevel.trans (oneTick_evolves h)
    · cases h
      exact hlevel
  | setStatus st =>
    cases h
    exact Evolves.control rfl

/-! ## Order -/

/-- The pending list is sorted by the times the interrupts are due at; an
interrupt that was scheduled is pending, or has been called; and no call was
early, or for a later time than an interrupt still pending. -/
structure Inv (s : Interrupt) : Prop where
  sorted : KeySorted s.pending
  keys : ∀ x ∈ s.pending, x.1 = x.2.when
  complete : s.scheduled.Perm (s.calls.map Call.interrupt ++ s.pending.map Prod.snd)
  ids : s.scheduled.map PendingInterrupt.id = List.range s.scheduled.length
  onTime : ∀ c ∈ s.calls, c.interrupt.when ≤ c.time ∧ c.time ≤ s.totalTicks
  ahead : ∀ c ∈ s.calls, ∀ x ∈ s.pending, c.interrupt.when ≤ x.1
  order : s.calls.Pairwise fun a b => a.interrupt.when ≤ b.interrupt.when ∧ a.time ≤ b.time

theorem new_inv : new.Inv where
  sorted := .nil
  keys := nofun
  complete := .nil
  ids := rfl
  onTime := nofun
  ahead := nofun
  order := .nil

theorem Moves.totalTicks_le (h : Moves s s') : s.totalTicks ≤ s'.totalTicks := by
  cases h with
  | control same => exact Int.le_of_eq (congrArg Interrupt.totalTicks same).symm
  | pass later => exact later
  | schedule | call | back => exact Int.le_refl _

theorem Moves.inv (h : Moves s s') (hi : s.Inv) : s'.Inv := by
  cases h with
  | control same =>
    have hpending : s'.pending = s.pending := (congrArg Interrupt.pending same :)
    have hscheduled : s'.scheduled = s.scheduled := (congrArg Interrupt.scheduled same :)
    have hcalls : s'.calls = s.calls := (congrArg Interrupt.calls same :)
    have hticks : s'.totalTicks = s.totalTicks := (congrArg Interrupt.totalTicks same :)
    obtain ⟨h1, h2, h3, h4, h5, h6, h7⟩ := hi
    rw [← hpending] at h1 h2 h3 h6
    rw [← hscheduled] at h3 h4
    rw [← hcalls] at h3 h5 h6 h7
    rw [← hticks] at h5
    exact ⟨h1, h2, h3, h4, h5, h6, h7⟩
  | pass later =>
    exact { hi with onTime := fun c hc =>
      ⟨(hi.onTime c hc).1, Int.le_trans (hi.onTime c hc).2 later⟩ }
  | @schedule toOccur fresh ahead =>
    refine ⟨hi.sorted.insert _ _, fun x hx => ?_, ?_, ?_, hi.onTime, fun c hc x hx => ?_, hi.order⟩
    · rcases mem_sortedInsert.mp hx with rfl | hx
      · rfl
      · exact hi.keys x hx
    · have hins := (sortedInsert_perm toOccur toOccur.when s.pending).map Prod.snd
      have hnew : (s.scheduled ++ [toOccur]).Perm
          (toOccur :: (s.calls.map Call.interrupt ++ s.pending.map Prod.snd)) :=
        (List.perm_append_singleton _ _).trans (hi.complete.cons _)
      exact (hnew.trans List.perm_middle.symm).trans (hins.symm.append_left _)
    · simp [hi.ids, fresh, List.range_succ]
    · rcases mem_sortedInsert.mp hx with rfl | hx
      · exact Int.le_of_lt (Int.lt_of_le_of_lt
          (Int.le_trans (hi.onTime c hc).1 (hi.onTime c hc).2) ahead)
      · exact hi.ahead c hc x hx
  | @call when toOccur rest first due =>
    have hsorted := first ▸ hi.sorted
    have hkeys := first ▸ hi.keys
    have hahead := first ▸ hi.ahead
    have hwhen : when = toOccur.when := hkeys _ List.mem_cons_self
    refine ⟨hsorted.tail, fun x hx => hkeys x (List.mem_cons_of_mem _ hx), ?_, hi.ids, ?_, ?_, ?_⟩
    · have hcomplete := first ▸ hi.complete
      simpa using hcomplete
    · intro c hc
      rcases List.mem_append.mp hc with hc | hc
      · exact hi.onTime c hc
      · obtain rfl := List.mem_singleton.mp hc
        exact ⟨hwhen ▸ due, Int.le_refl _⟩
    · intro c hc x hx
      rcases List.mem_append.mp hc with hc | hc
      · exact hahead c hc x (List.mem_cons_of_mem _ hx)
      · obtain rfl := List.mem_singleton.mp hc
        exact hwhen ▸ hsorted.head_le hx
    · refine List.pairwise_append.mpr ⟨hi.order, List.pairwise_singleton _ _, fun a ha b hb => ?_⟩
      obtain rfl := List.mem_singleton.mp hb
      exact ⟨hwhen ▸ hahead a ha _ List.mem_cons_self, (hi.onTime a ha).2⟩
  | @back when toOccur rest first =>
    have hperm : (sortedInsert toOccur when rest).Perm s.pending := by
      rw [first]
      exact sortedInsert_perm _ _ _
    refine ⟨(first ▸ hi.sorted).tail.insert _ _, fun x hx => hi.keys x (hperm.mem_iff.mp hx), ?_,
      hi.ids, hi.onTime, fun c hc x hx => hi.ahead c hc x (hperm.mem_iff.mp hx), hi.order⟩
    exact hi.complete.trans ((hperm.map Prod.snd).symm.append_left _)

theorem Evolves.inv (h : s.Evolves s') (hi : s.Inv) : s'.Inv := by
  induction h with
  | refl => exact hi
  | tail _ hmove ih => exact hmove.inv ih

theorem Evolves.totalTicks_le (h : s.Evolves s') : s.totalTicks ≤ s'.totalTicks := by
  induction h with
  | refl => exact Int.le_refl _
  | tail _ hmove ih => exact Int.le_trans ih hmove.totalTicks_le

/-- In every run each interrupt is called at most once, not before its time, and
in the order of these times; an interrupt that has not been called is pending. -/
theorem interrupts_in_order {es : List Step} (run : Run step new es s) :
    (s.calls.map fun c => c.interrupt.id).Nodup ∧
    (∀ c ∈ s.calls, c.interrupt ∈ s.scheduled ∧ c.interrupt.when ≤ c.time) ∧
    (s.calls.Pairwise fun a b => a.interrupt.when ≤ b.interrupt.when ∧ a.time ≤ b.time) ∧
    (∀ p ∈ s.scheduled, p ∈ s.calls.map Call.interrupt ∨ (p.when, p) ∈ s.pending) ∧
    (s.scheduled.map PendingInterrupt.id).Nodup ∧
    ∀ es' s', Run step s es' s' → s.totalTicks ≤ s'.totalTicks := by
  have hi : s.Inv := run.inv (fun _ _ _ hi h => (step_evolves h).inv hi) new_inv
  have hids : (s.scheduled.map PendingInterrupt.id).Nodup := by
    rw [hi.ids]
    exact List.nodup_range
  refine ⟨?_, fun c hc => ⟨?_, (hi.onTime c hc).1⟩, hi.order, fun p hp => ?_, hids, ?_⟩
  · have hboth := (hi.complete.map PendingInterrupt.id).nodup_iff.mp hids
    rw [List.map_append, List.map_map] at hboth
    exact hboth.of_append_left
  · exact hi.complete.mem_iff.mpr (List.mem_append_left _ (List.mem_map_of_mem hc))
  · refine (List.mem_append.mp (hi.complete.mem_iff.mp hp)).imp_right fun hpending => ?_
    obtain ⟨⟨when, q⟩, hx, rfl⟩ := List.mem_map.mp hpending
    have hkey : when = q.when := hi.keys _ hx
    exact hkey ▸ hx
  · intro es' s' run'
    exact run'.inv (I := fun u => s.totalTicks ≤ u.totalTicks)
      (fun _ _ _ hle h => Int.le_trans hle (step_evolves h).totalTicks_le) (Int.le_refl _)

/-- A disk interrupt is due in the first tick; its handler schedules another one,
which `Idle` waits for. -/
def diskThenConsole : List Step :=
  [.schedule ⟨0, 0, 5, .diskInt⟩,
   .oneTick 2 fun _ => ⟨[⟨1, 7, 20, .consoleReadInt⟩], true⟩,
   .setLevel .intOff 0 fun _ => ⟨[], false⟩,
   .idle 2 fun _ => ⟨[], false⟩]

theorem interrupts_in_order_idle : ∃ s, Run step new diskThenConsole s ∧
    s.calls.map Call.time = [10, 30] ∧ (s.calls.map fun c => c.interrupt.id).Nodup := by
  have hcontinues : continues step new diskThenConsole
      (fun s => decide (s.calls.map Call.time = [10, 30])) = true := by decide
  obtain ⟨s, run, htimes⟩ := continues_iff.mp hcontinues
  exact ⟨s, run, of_decide_eq_true htimes, (interrupts_in_order run).1⟩

/-! ## Termination -/

/-- How many of the pending interrupts are due. -/
def due (s : Interrupt) : Nat := s.pending.countP fun x => decide (x.1 ≤ s.totalTicks)

/-- What the handlers leave as it is. -/
structure Keeps (s s' : Interrupt) : Prop where
  level : s'.level = s.level
  totalTicks : s'.totalTicks = s.totalTicks
  due : s'.due = s.due

theorem Keeps.refl (s : Interrupt) : s.Keeps s := ⟨rfl, rfl, rfl⟩

theorem Keeps.trans {s1 : Interrupt} (h : s.Keeps s1) (h' : s1.Keeps s') : s.Keeps s' :=
  ⟨h'.level.trans h.level, h'.totalTicks.trans h.totalTicks, h'.due.trans h.due⟩

theorem schedule_keeps {q : Request} (h : s.schedule q = .ok s') : s.Keeps s' := by
  obtain ⟨when, hwhen, h⟩ := bind_eq_ok.mp h
  obtain ⟨-, rfl⟩ := cInt_eq_ok.mp hwhen
  obtain ⟨hpos, h⟩ := ite_error_eq_ok.mp h
  cases h
  refine ⟨rfl, rfl, ?_⟩
  have hlate : ¬ s.totalTicks + q.fromNow ≤ s.totalTicks := by omega
  refine ((sortedInsert_perm _ _ _).countP_eq _).trans (List.countP_cons_of_neg ?_)
  exact fun hle => hlate (of_decide_eq_true hle)

theorem schedules_keeps {qs : List Request} (h : qs.foldlM schedule s = .ok s') :
    s.Keeps s' := by
  induction qs generalizing s with
  | nil =>
    cases h
    exact Keeps.refl _
  | cons q qs ih =>
    rw [List.foldlM_cons] at h
    obtain ⟨s1, h1, h⟩ := bind_eq_ok.mp h
    exact (schedule_keeps h1).trans (ih h)

theorem handle_keeps {r : Reaction} (h : s.handle r = .ok s') : s.Keeps s' := by
  obtain ⟨s1, h1, h⟩ := bind_eq_ok.mp h
  refine (schedules_keeps h1).trans ?_
  split at h
  · obtain ⟨-, h⟩ := ite_error_eq_ok.mp h
    cases h
    exact ⟨rfl, rfl, rfl⟩
  · cases h
    exact Keeps.refl _

theorem fire_keeps {when : Int} {toOccur : PendingInterrupt} {r : Reaction}
    (h : s.fire toOccur when r = .ok (true, s')) : s.Keeps s' := by
  unfold fire at h
  split at h
  · cases h
  · obtain ⟨s1, hinvoke, h⟩ := bind_eq_ok.mp h
    cases h
    obtain ⟨s2, h2, hinvoke⟩ := bind_eq_ok.mp hinvoke
    cases hinvoke
    obtain ⟨hlevel, hticks, hdue⟩ := handle_keeps h2
    exact ⟨hlevel, hticks, hdue⟩

/-- The time at which `CheckIfDue` calls the handler. -/
def callTime (s : Interrupt) (advanceClock : Bool) : Int :=
  match s.pending with
  | [] => s.totalTicks
  | (when, _) :: _ => if advanceClock ∧ when > s.totalTicks then when else s.totalTicks

theorem callTime_false (s : Interrupt) : s.callTime false = s.totalTicks := by
  unfold callTime
  split
  · rfl
  · exact if_neg fun h => Bool.false_ne_true h.1

/-- An interrupt that is called leaves the list, and those that its handler
schedules are not due. -/
theorem checkIfDue_called {advanceClock : Bool} {r : Reaction}
    (h : s.checkIfDue advanceClock r = .ok (true, s')) :
    ∃ when toOccur rest, s.pending = (when, toOccur) :: rest ∧
      (advanceClock = false → when ≤ s.totalTicks) ∧
      Keeps { s with pending := rest, totalTicks := s.callTime advanceClock } s' := by
  obtain ⟨-, h⟩ := ite_error_left_eq_ok.mp h
  unfold callTime
  split at h
  · cases h
  · rename_i when toOccur rest first
    refine ⟨when, toOccur, rest, first, ?_⟩
    split at h
    · rename_i hadvance
      rw [if_pos hadvance]
      exact ⟨fun hoff => absurd (hoff ▸ hadvance.1) Bool.false_ne_true, fire_keeps h⟩
    · rename_i hadvance
      rw [if_neg hadvance]
      split at h
      · cases h
      · rename_i hdue
        exact ⟨fun _ => Int.not_lt.mp hdue, fire_keeps h⟩

/-- A round of the loop that calls a handler leaves one interrupt less that is due. -/
theorem checkIfDue_due {r : Reaction} (h : s.checkIfDue false r = .ok (true, s')) :
    s'.level = s.level ∧ s'.totalTicks = s.totalTicks ∧ s'.due + 1 = s.due := by
  obtain ⟨when, toOccur, rest, first, hdue, hkeeps⟩ := checkIfDue_called h
  rw [callTime_false] at hkeeps
  refine ⟨hkeeps.level, hkeeps.totalTicks, ?_⟩
  rw [hkeeps.due]
  simp [due, first, hdue]

theorem schedule_ne_disabled (s : Interrupt) (q : Request) : s.schedule q ≠ .error .disabled := by
  refine bind_ne_error ?_ fun when _ => ?_
  · unfold cInt
    split <;> exact nofun
  · dsimp only
    split <;> exact nofun

theorem handle_ne_disabled (s : Interrupt) (r : Reaction) : s.handle r ≠ .error .disabled := by
  refine bind_ne_error ?_ fun s1 _ => ?_
  · induction r.requests generalizing s with
    | nil => exact nofun
    | cons q qs ih =>
      rw [List.foldlM_cons]
      exact bind_ne_error (s.schedule_ne_disabled q) fun s1 _ => ih s1
  · unfold setYieldOnReturn
    split
    · split <;> exact nofun
    · exact nofun

theorem checkIfDue_ne_disabled (s : Interrupt) (advanceClock : Bool) (r : Reaction) :
    s.checkIfDue advanceClock r ≠ .error .disabled := by
  have hfire : ∀ (u : Interrupt) toOccur when, u.fire toOccur when r ≠ .error .disabled := by
    intro u toOccur when
    unfold fire
    split
    · exact nofun
    · refine bind_ne_error ?_ fun _ _ => nofun
      exact bind_ne_error (handle_ne_disabled _ r) fun _ _ => nofun
  unfold checkIfDue
  split
  · exact nofun
  · split
    · exact nofun
    · split
      · exact hfire _ _ _
      · split
        · exact nofun
        · exact hfire _ _ _

/-- The loop makes no more rounds than there are interrupts due, and one. -/
theorem whileDue_ne_disabled {react : Nat → Reaction} {fuel i : Nat} (enough : s.due < fuel) :
    whileDue react fuel i s ≠ .error .disabled := by
  induction fuel generalizing i s with
  | zero => exact absurd enough (Nat.not_lt_zero _)
  | succ fuel ih =>
    refine bind_ne_error (s.checkIfDue_ne_disabled false _) fun ⟨b, s1⟩ hcheck => ?_
    cases b with
    | false => exact nofun
    | true =>
      have hless : s1.due + 1 = s.due := (checkIfDue_due hcheck).2.2
      exact ih (by dsimp only; omega)

/-- A handler asks for positive delays, within the range of the clock. -/
def Timely (r : Reaction) (now : Int) : Prop :=
  ∀ q ∈ r.requests, 0 < q.fromNow ∧ IsInt (now + q.fromNow)

theorem schedules_timely {qs : List Request}
    (timely : ∀ q ∈ qs, 0 < q.fromNow ∧ IsInt (s.totalTicks + q.fromNow)) :
    ∃ s', qs.foldlM schedule s = .ok s' ∧ s'.inHandler = s.inHandler := by
  induction qs generalizing s with
  | nil => exact ⟨s, rfl, rfl⟩
  | cons q qs ih =>
    obtain ⟨hpos, hint⟩ := timely q List.mem_cons_self
    have hone : ∃ s1, s.schedule q = .ok s1 ∧ s1.inHandler = s.inHandler := by
      unfold schedule
      rw [cInt_of_isInt hint, ok_bind]
      dsimp only
      rw [if_pos hpos]
      exact ⟨_, rfl, rfl⟩
    obtain ⟨s1, h1, hin⟩ := hone
    have htime : s1.totalTicks = s.totalTicks := (schedule_keeps h1).totalTicks
    obtain ⟨s2, h2, hin2⟩ := ih (s := s1) fun q hq => htime ▸ timely q (List.mem_cons_of_mem _ hq)
    refine ⟨s2, ?_, hin2.trans hin⟩
    rw [List.foldlM_cons, h1, ok_bind, h2]

theorem handle_timely {r : Reaction} (inside : s.inHandler = true)
    (timely : Timely r s.totalTicks) : ∃ s', s.handle r = .ok s' := by
  obtain ⟨s1, h1, hin⟩ := schedules_timely timely
  unfold handle
  rw [h1, ok_bind]
  split
  · exact ⟨_, if_pos (hin.trans inside)⟩
  · exact ⟨_, rfl⟩

theorem fire_timely {when : Int} {toOccur : PendingInterrupt} {r : Reaction}
    (timely : Timely r s.totalTicks) : ∃ b s', s.fire toOccur when r = .ok (b, s') := by
  unfold fire
  split
  · exact ⟨_, _, rfl⟩
  · obtain ⟨s1, h1⟩ := handle_timely (r := r) (s := { s with
        inHandler := true, status := .systemMode
        calls := s.calls ++ [Call.mk toOccur s.totalTicks] }) rfl timely
    unfold invoke
    rw [h1, ok_bind, ok_bind]
    exact ⟨_, _, rfl⟩

theorem checkIfDue_timely {advanceClock : Bool} {r : Reaction} (off : s.level = .intOff)
    (timely : Timely r (s.callTime advanceClock)) :
    ∃ b s', s.checkIfDue advanceClock r = .ok (b, s') := by
  unfold callTime at timely
  unfold checkIfDue
  rw [if_neg (not_not_intro off)]
  split
  · exact ⟨_, _, rfl⟩
  · rename_i when toOccur rest first
    rw [first] at timely
    dsimp only at timely
    split
    · rename_i hadvance
      rw [if_pos hadvance] at timely
      exact fire_timely timely
    · rename_i hadvance
      rw [if_neg hadvance] at timely
      split
      · exact ⟨_, _, rfl⟩
      · exact fire_timely timely

/-- With such handlers the loop comes to its end. -/
theorem whileDue_timely {react : Nat → Reaction} {fuel i : Nat} (enough : s.due < fuel)
    (off : s.level = .intOff) (timely : ∀ j, Timely (react j) s.totalTicks) :
    ∃ s', whileDue react fuel i s = .ok s' := by
  induction fuel generalizing i s with
  | zero => exact absurd enough (Nat.not_lt_zero _)
  | succ fuel ih =>
    obtain ⟨b, s1, hcheck⟩ := checkIfDue_timely off (s.callTime_false.symm ▸ timely i)
    unfold whileDue
    rw [hcheck, ok_bind]
    cases b with
    | false => exact ⟨s1, rfl⟩
    | true =>
      obtain ⟨hlevel, htime, hless⟩ := checkIfDue_due hcheck
      exact ih (by dsimp only; omega) (hlevel.trans off) fun j => htime ▸ timely j

theorem due_le_length (s : Interrupt) : s.due ≤ s.pending.length := List.countP_le_length

section Delivery
variable {fuel : Nat} {react : Nat → Reaction} (enough : s.pending.length < fuel)
include enough

theorem oneTick_ne_disabled : s.oneTick fuel react ≠ .error .disabled := by
  refine bind_ne_error ?_ fun t _ => bind_ne_error ?_ fun _ _ => nofun
  · unfold cInt
    split <;> exact nofun
  · exact whileDue_ne_disabled (Nat.lt_of_le_of_lt (due_le_length _) enough)

theorem oneTick_timely (range : IsInt (s.totalTicks + s.tick))
    (timely : ∀ j, Timely (react j) (s.totalTicks + s.tick)) :
    ∃ s', s.oneTick fuel react = .ok s' := by
  have hloop : ∃ s1, whileDue react fuel 0
      { s with totalTicks := s.totalTicks + s.tick, level := .intOff } = .ok s1 :=
    whileDue_timely (Nat.lt_of_le_of_lt (due_le_length _) enough) rfl timely
  obtain ⟨s1, hloop⟩ := hloop
  unfold oneTick
  rw [cInt_of_isInt range, ok_bind, hloop]
  exact ⟨_, rfl⟩

/-- `Idle` comes to its loop with the interrupts behind the first one. -/
theorem idle_called {s1 : Interrupt} {r : Reaction}
    (h : { s with status := .idleMode }.checkIfDue true r = .ok (true, s1)) :
    s1.due < fuel ∧ s1.level = s.level ∧ s1.totalTicks = s.callTime true := by
  obtain ⟨when, toOccur, rest, first, -, hkeeps⟩ := checkIfDue_called h
  have hfirst : s.pending = (when, toOccur) :: rest := first
  refine ⟨?_, hkeeps.level, hkeeps.totalTicks⟩
  rw [hfirst, List.length_cons] at enough
  rw [hkeeps.due]
  exact Nat.lt_of_le_of_lt (due_le_length _) (Nat.lt_of_succ_lt enough)

theorem idle_ne_disabled : s.idle fuel react ≠ .error .disabled := by
  refine bind_ne_error (checkIfDue_ne_disabled _ _ _) fun ⟨b, s1⟩ hcheck => ?_
  cases b with
  | false => exact nofun
  | true =>
    exact bind_ne_error (whileDue_ne_disabled (idle_called enough hcheck).1) fun _ _ => nofun

theorem idle_timely (off : s.level = .intOff)
    (timely : ∀ j, Timely (react j) (s.callTime true)) :
    (∃ s', s.idle fuel react = .ok s') ∨ s.idle fuel react = .error .halted := by
  obtain ⟨b, s1, hcheck⟩ := checkIfDue_timely (s := { s with status := .idleMode }) off (timely 0)
  unfold idle
  rw [hcheck, ok_bind]
  cases b with
  | false => exact .inr rfl
  | true =>
    obtain ⟨hdue, hlevel, htime⟩ := idle_called enough hcheck
    obtain ⟨s2, hloop⟩ := whileDue_timely (i := 1) hdue (hlevel.trans off)
      fun j => htime ▸ timely j
    rw [if_pos rfl, hloop]
    exact .inl ⟨_, rfl⟩

end Delivery

/-- The loops of `OneTick` and `Idle` end, whatever the handlers schedule: with
more rounds than there are pending interrupts they do not run out of rounds. They
end regularly if every delay is positive and within the range of the clock; `Idle`
then goes on with the next thread or, with nothing to wait for, halts. -/
theorem delivery_terminates {fuel : Nat} (react : Nat → Reaction)
    (enough : s.pending.length < fuel) :
    (∀ i, whileDue react fuel i s ≠ .error .disabled) ∧
    s.oneTick fuel react ≠ .error .disabled ∧ s.idle fuel react ≠ .error .disabled ∧
    (s.level = .intOff → (∀ j, Timely (react j) s.totalTicks) →
      ∀ i, ∃ s', whileDue react fuel i s = .ok s') ∧
    (IsInt (s.totalTicks + s.tick) → (∀ j, Timely (react j) (s.totalTicks + s.tick)) →
      ∃ s', s.oneTick fuel react = .ok s') ∧
    (s.level = .intOff → (∀ j, Timely (react j) (s.callTime true)) →
      (∃ s', s.idle fuel react = .ok s') ∨ s.idle fuel react = .error .halted) := by
  have hdue : s.due < fuel := Nat.lt_of_le_of_lt s.due_le_length enough
  exact ⟨fun _ => whileDue_ne_disabled hdue, oneTick_ne_disabled enough, idle_ne_disabled enough,
    fun off timely _ => whileDue_timely hdue off timely, oneTick_timely enough,
    idle_timely enough⟩

/-- Two interrupts are due, and every handler schedules another one. -/
theorem delivery_terminates_two : ∃ s : Interrupt, s.pending.map Prod.fst = [3, 4] ∧
    ∃ s', s.oneTick 3 (fun _ => ⟨[⟨0, 0, 1, .networkSendInt⟩], false⟩) = .ok s' := by
  refine ⟨{ new with pending := [(3, ⟨0, 0, 0, 3, .diskInt⟩), (4, ⟨1, 0, 0, 4, .diskInt⟩)] },
    rfl, ?_⟩
  refine (delivery_terminates _ (Nat.lt_succ_self 2)).2.2.2.2.1 (by decide) fun _ q hq => ?_
  obtain rfl := List.mem_singleton.mp hq
  decide

end Interrupt
end Nachos

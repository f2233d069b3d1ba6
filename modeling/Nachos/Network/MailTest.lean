import Nachos.Network.Delivery

/-! The mail test (nettest.cc), on any number of machines: each sends a greeting to
another machine, waits for a greeting, acknowledges it, and waits for the
acknowledgement of its own. Packets may be lost, and the machines run at any speed. As
`Condition::Wait` is a dummy that asserts, a machine whose mail is not there in time stops;
what a machine has printed by then is right in any case. -/

namespace Nachos.Post
open Lib

/-- What the thread does next. -/
inductive MailTest.Point
  | send
  | sending
  | receive
  | reply
  | replying
  | receiveAck
  | halted
  deriving DecidableEq

/-- The arguments of a `printf`: the string in the buffer, the machine and the box. -/
structure MailTest.Line where
  message : List UInt8
  source : NetworkAddress
  box : MailBoxAddress
  deriving DecidableEq

/-- The variables of `MailTest`, and what it has printed. -/
structure MailTest.Thread where
  point : MailTest.Point
  outPktHdr : PacketHeader
  inPktHdr : PacketHeader
  outMailHdr : MailHeader
  inMailHdr : MailHeader
  buffer : Nat → UInt8
  printed : List MailTest.Line

structure MailTest where
  post : State
  thread : NetworkAddress → MailTest.Thread

namespace MailTest

/-- The strings `data` and `ack`, with their terminators. -/
def data : List UInt8 := text "Hello there!" ++ [0]
def ack : List UInt8 := text "Got it!" ++ [0]

/-- `m` goes on, with the network as it is now. -/
def set (s : MailTest) (m : NetworkAddress) (post : State) (th : Thread) : MailTest where
  post := post
  thread := Function.update s.thread m th

/-- A call of `Send` up to its wait; behind the string there is anything. -/
def sendMail (s : MailTest) (m : NetworkAddress) (outPktHdr : PacketHeader)
    (outMailHdr : MailHeader) (string : List UInt8) (beyond : Nat → UInt8)
    (fresh : Nat → Nat → UInt8) (lost : Bool) (next : Point) : Except Fault MailTest := do
  let post ← s.post.step
    (m, .send outPktHdr outMailHdr (overlay beyond 0 string) fresh lost)
  .ok (s.set m post { s.thread m with
    outPktHdr := outPktHdr, outMailHdr := outMailHdr, point := next })

/-- `Send` returns. -/
def sendReturns (s : MailTest) (m : NetworkAddress) (next : Point) : Except Fault MailTest := do
  let post ← s.post.step (m, .sendReturns)
  .ok (s.set m post { s.thread m with point := next })

/-- A call of `Receive`, with the `printf` behind it. -/
def receiveMail (s : MailTest) (m : NetworkAddress) (box : MailBoxAddress) (next : Point) :
    Except Fault MailTest := do
  let post ← s.post.step (m, .get box)
  match (s.post.machine m).messages box with
  | [] => .error .disabled
  | mail :: _ =>
    let buffer := overlay (s.thread m).buffer 0 mail.data
    let message ← stringAt buffer 0 maxMailSize
    .ok (s.set m post { s.thread m with
      inPktHdr := mail.pktHdr
      inMailHdr := mail.mailHdr
      buffer := buffer
      printed := (s.thread m).printed ++ [⟨message, mail.pktHdr.source, mail.mailHdr.source⟩]
      point := next })

/-- `MailTest(far)` on machine `m`, from one wait to the next. -/
def advance (s : MailTest) (far m : NetworkAddress) (beyond : Nat → UInt8)
    (fresh : Nat → Nat → UInt8) (lost : Bool) : Except Fault MailTest :=
  let th := s.thread m
  match th.point with
  | .send =>
    s.sendMail m { th.outPktHdr with dest := far } ⟨0, 1, data.length⟩ data beyond fresh lost
      .sending
  | .sending => s.sendReturns m .receive
  | .receive => s.receiveMail m 0 .reply
  | .reply =>
    s.sendMail m { th.outPktHdr with dest := th.inPktHdr.source }
      { th.outMailHdr with dest := th.inMailHdr.source, length := ack.length } ack beyond fresh
      lost .replying
  | .replying => s.sendReturns m .receiveAck
  | .receiveAck => s.receiveMail m 1 .halted
  | .halted => .error .disabled

/-- What the devices and the postal worker of a machine do. -/
inductive Device
  | sendDone
  | checkPktAvail (fresh : Nat → UInt8)
  | wake
  | receive
  | put

def Device.event : Device → Post.Event
  | .sendDone => .sendDone
  | .checkPktAvail fresh => .checkPktAvail fresh
  | .wake => .wake
  | .receive => .receive
  | .put => .put

inductive Event
  | device (d : Device)
  | advance (beyond : Nat → UInt8) (fresh : Nat → Nat → UInt8) (lost : Bool)

/-- An event at a machine; `far m` is the argument of the test on machine `m`. -/
def step (far : NetworkAddress → NetworkAddress) (s : MailTest) :
    NetworkAddress × Event → Except Fault MailTest
  | (m, .device d) => do
    let post ← s.post.step (m, d.event)
    .ok { s with post := post }
  | (m, .advance beyond fresh lost) => s.advance (far m) m beyond fresh lost

/-- The post offices have ten boxes; the threads' variables are not set. -/
def new (inHdr pktHdr : PacketHeader) (fresh : Nat → UInt8) (thread : NetworkAddress → Thread) :
    MailTest where
  post := init 10 inHdr pktHdr fresh
  thread := fun m => { thread m with point := .send, printed := [] }

/-! ## The messages -/

/-- The greeting of machine `m`, and its acknowledgement of one from machine `u`. -/
def helloMail (far m : NetworkAddress) : Mail := ⟨⟨far, m, 25⟩, ⟨0, 1, 13⟩, data⟩
def ackMail (m u : NetworkAddress) : Mail := ⟨⟨u, m, 20⟩, ⟨1, 1, 8⟩, ack⟩

def helloLine (u : NetworkAddress) : Line := ⟨text "Hello there!", u, 1⟩
def ackLine (u : NetworkAddress) : Line := ⟨text "Got it!", u, 1⟩

theorem bytesAt_overlay (beyond : Nat → UInt8) (string : List UInt8) :
    bytesAt (overlay beyond 0 string) 0 string.length = string :=
  hasBytes_overlay.bytesAt_eq

theorem mailOf_hello (far m : NetworkAddress) (hdr : PacketHeader) (beyond : Nat → UInt8) :
    State.mailOf m { hdr with dest := far } ⟨0, 1, data.length⟩ (overlay beyond 0 data) =
      helloMail far m := by
  have hdata := bytesAt_overlay beyond data
  exact Mail.mk.injEq .. |>.mpr ⟨rfl, rfl, hdata⟩

theorem mailOf_ack (m u : NetworkAddress) (hdr : PacketHeader) (beyond : Nat → UInt8) :
    State.mailOf m { hdr with dest := u } ⟨1, 1, ack.length⟩ (overlay beyond 0 ack) =
      ackMail m u := by
  have hdata := bytesAt_overlay beyond ack
  exact Mail.mk.injEq .. |>.mpr ⟨rfl, rfl, hdata⟩

theorem stringAt_data (buffer : Nat → UInt8) :
    stringAt (overlay buffer 0 data) 0 maxMailSize = .ok (text "Hello there!") := rfl

theorem stringAt_ack (buffer : Nat → UInt8) :
    stringAt (overlay buffer 0 ack) 0 maxMailSize = .ok (text "Got it!") := rfl

/-! ## What the network does to the records -/

/-- The events of the network that are not calls of `Send` or `Receive`. -/
theorem react_records {x y : Machine} {numBoxes : Int} {m : NetworkAddress} {e : Post.Event}
    (h : x.react numBoxes m e = .ok y) (he : ∀ b, e ≠ .get b) :
    y.sent = x.sent ∧ y.got = x.got ∧ (x.sendBusy = false → y.sendBusy = false) := by
  cases e with
  | send => cases h
  | get b => exact absurd rfl (he b)
  | checkPktAvail fresh =>
    change x.checkPktAvail m fresh = _ at h
    unfold Machine.checkPktAvail at h
    split at h
    · cases h
      exact ⟨rfl, rfl, id⟩
    · split at h
      · cases h
        exact ⟨rfl, rfl, id⟩
      · obtain ⟨-, h⟩ := ite_error_eq_ok.mp h
        cases h
        exact ⟨rfl, rfl, id⟩
  | put =>
    obtain ⟨-, h⟩ := ite_error_eq_ok.mp h
    obtain ⟨-, h⟩ := ite_error_eq_ok.mp h
    obtain ⟨-, h⟩ := ite_error_eq_ok.mp h
    cases h
    exact ⟨rfl, rfl, id⟩
  | sendDone =>
    obtain ⟨-, h⟩ := ite_error_eq_ok.mp h
    cases h
    exact ⟨rfl, rfl, fun _ => rfl⟩
  | sendReturns | wake | receive =>
    obtain ⟨-, h⟩ := ite_error_eq_ok.mp h
    cases h
    exact ⟨rfl, rfl, id⟩

theorem get_eq_ok {x y : Machine} {numBoxes : Int} {b : MailBoxAddress}
    (h : x.get numBoxes b = .ok y) : ∃ mail rest, x.messages b = mail :: rest ∧
      y.sent = x.sent ∧ y.got = Function.update x.got b (x.got b ++ [mail]) ∧
      y.sendBusy = x.sendBusy := by
  obtain ⟨-, h⟩ := ite_error_eq_ok.mp h
  split at h
  · cases h
  · rename_i mail rest hbox
    obtain ⟨-, h⟩ := ite_error_eq_ok.mp h
    cases h
    exact ⟨mail, rest, hbox, rfl, rfl, rfl⟩

/-- A message in a box was sent to it. -/
theorem arrived {k : State} {t : NetworkAddress → Transit} (h : k.Flow t) {m : NetworkAddress}
    {b : MailBoxAddress} {mail : Mail} (hm : mail ∈ (k.machine m).putInto b) :
    mail ∈ (k.machine mail.pktHdr.source).sent ∧ mail.pktHdr.dest = m ∧ mail.mailHdr.dest = b := by
  have hfilter : mail ∈ ((k.machine m).putInto b).filter
      fun x => x.pktHdr.source = mail.pktHdr.source := by simp [hm]
  have hsent := (h.put_prefix mail.pktHdr.source m b).subset hfilter
  obtain ⟨hmem, haddr⟩ := List.mem_filter.mp hsent
  exact ⟨hmem, of_decide_eq_true haddr⟩

/-! ## The protocol -/

/-- How far machine `m` has come, by the messages that it has got. -/
inductive Phase (far : NetworkAddress → NetworkAddress) (m : NetworkAddress)
    (got : MailBoxAddress → List Mail) (th : Thread) : Prop
  | opening (point : th.point = .send ∨ th.point = .sending ∨ th.point = .receive)
      (none : got 0 = [] ∧ got 1 = []) (printed : th.printed = [])
      (out : th.point ≠ .send → th.outMailHdr.source = 1)
  | answering (u : NetworkAddress)
      (point : th.point = .reply ∨ th.point = .replying ∨ th.point = .receiveAck)
      (partner : far u = m) (greeted : got 0 = [helloMail m u] ∧ got 1 = [])
      (printed : th.printed = [helloLine u]) (out : th.outMailHdr.source = 1)
      (received : th.inPktHdr.source = u ∧ th.inMailHdr.source = 1)
  | closed (u : NetworkAddress) (point : th.point = .halted) (partner : far u = m)
      (greeted : got 0 = [helloMail m u] ∧ got 1 = [ackMail (far m) m])
      (printed : th.printed = [helloLine u, ackLine (far m)])

section
variable {far : NetworkAddress → NetworkAddress} {m : NetworkAddress}
  {got : MailBoxAddress → List Mail} {th : Thread}

theorem Phase.opens (h : Phase far m got th)
    (hpt : th.point = .send ∨ th.point = .sending ∨ th.point = .receive) :
    (got 0 = [] ∧ got 1 = []) ∧ th.printed = [] ∧
      (th.point ≠ .send → th.outMailHdr.source = 1) := by
  cases h with
  | opening _ none printed out => exact ⟨none, printed, out⟩
  | answering u point =>
    rcases hpt with hpt | hpt | hpt <;> simp [hpt] at point
  | closed u point =>
    rcases hpt with hpt | hpt | hpt <;> simp [hpt] at point

theorem Phase.answers (h : Phase far m got th)
    (hpt : th.point = .reply ∨ th.point = .replying ∨ th.point = .receiveAck) :
    ∃ u, far u = m ∧ (got 0 = [helloMail m u] ∧ got 1 = []) ∧ th.printed = [helloLine u] ∧
      th.outMailHdr.source = 1 ∧ th.inPktHdr.source = u ∧ th.inMailHdr.source = 1 := by
  cases h with
  | opening point =>
    rcases hpt with hpt | hpt | hpt <;> simp [hpt] at point
  | answering u _ partner greeted printed out received =>
    exact ⟨u, partner, greeted, printed, out, received⟩
  | closed u point =>
    rcases hpt with hpt | hpt | hpt <;> simp [hpt] at point

end

/-- A message that machine `m` sends: an acknowledgement says what its sender got first. -/
def Sends (far : NetworkAddress → NetworkAddress) (m : NetworkAddress)
    (got : MailBoxAddress → List Mail) (mail : Mail) : Prop :=
  mail = helloMail (far m) m ∨ ∃ u, mail = ackMail m u ∧ got 0 = [helloMail m u]

structure Inv (far : NetworkAddress → NetworkAddress) (s : MailTest) : Prop where
  flow : ∃ t, s.post.Flow t
  boxes : s.post.numBoxes = 10
  free : ∀ m, (s.post.machine m).sendBusy = false
  sent : ∀ m, ∀ mail ∈ (s.post.machine m).sent, Sends far m (s.post.machine m).got mail
  phase : ∀ m, Phase far m (s.post.machine m).got (s.thread m)

variable {far : NetworkAddress → NetworkAddress} {s s' : MailTest} {m : NetworkAddress}

/-- What is put into box 0 is a greeting. -/
theorem Inv.greeting (hi : s.Inv far) {mail : Mail} (h : mail ∈ (s.post.machine m).putInto 0) :
    ∃ u, mail = helloMail m u ∧ far u = m := by
  obtain ⟨t, hflow⟩ := hi.flow
  obtain ⟨hsent, hdest, hbox⟩ := arrived hflow h
  rcases hi.sent _ mail hsent with hmail | ⟨u, hmail, -⟩
  · rw [hmail] at hdest
    have hfar : far mail.pktHdr.source = m := hdest
    rw [hfar] at hmail
    exact ⟨_, hmail, hfar⟩
  · rw [hmail] at hbox
    exact absurd (show (1 : MailBoxAddress) = 0 from hbox) (by decide)

/-- What is put into box 1 is an acknowledgement, from the machine that was greeted. -/
theorem Inv.acknowledged (hi : s.Inv far) {mail : Mail}
    (h : mail ∈ (s.post.machine m).putInto 1) :
    mail = ackMail (far m) m ∧ (s.post.machine (far m)).got 0 = [helloMail (far m) m] := by
  obtain ⟨t, hflow⟩ := hi.flow
  obtain ⟨hsent, hdest, hbox⟩ := arrived hflow h
  rcases hi.sent _ mail hsent with hmail | ⟨u, hmail, hgot⟩
  · rw [hmail] at hbox
    exact absurd (show (0 : MailBoxAddress) = 1 from hbox) (by decide)
  · rw [hmail] at hdest
    obtain rfl : u = m := hdest
    generalize mail.pktHdr.source = v at hmail hgot
    -- the sender of the acknowledgement got the greeting, which went to `far u`
    have hput : helloMail v u ∈ (s.post.machine v).putInto 0 := by
      rw [Machine.putInto, hgot]
      exact List.mem_append_left _ (List.mem_singleton_self _)
    obtain ⟨w, hw, hfar⟩ := hi.greeting hput
    obtain rfl : u = w := congrArg (fun x => x.pktHdr.source) hw
    rw [hfar]
    exact ⟨hmail, hgot⟩

/-! ## The steps -/

theorem set_thread (post : State) (th : Thread) (u : NetworkAddress) :
    (s.set m post th).thread u = if u = m then th else s.thread u := Function.update_apply ..

theorem setMachine_machine (k : State) (x : Machine) (u : NetworkAddress) :
    (k.setMachine m x).machine u = if u = m then x else k.machine u := Function.update_apply ..

/-- An event of the network below the test, with the thread at another point. -/
theorem Inv.react (hi : s.Inv far) {e : Post.Event} {k : State} (h : s.post.step (m, e) = .ok k)
    (hsend : ∀ p q d f l, e ≠ .send p q d f l) (hget : ∀ b, e ≠ .get b) {th : Thread}
    (hth : Phase far m (s.post.machine m).got th) : (s.set m k th).Inv far := by
  obtain ⟨t, hflow⟩ := hi.flow
  have hflow' := hflow.step h
  rcases State.step_cases h with ⟨p, q, d, f, l, he⟩ | ⟨x, hx, rfl⟩
  · exact absurd he (hsend p q d f l)
  obtain ⟨hsent, hgot, hfree⟩ := react_records hx hget
  refine ⟨hflow', hi.boxes, fun u => ?_, fun u => ?_, fun u => ?_⟩
  · change ((s.post.setMachine m x).machine u).sendBusy = false
    rw [setMachine_machine]
    split
    · exact hfree (hi.free m)
    · exact hi.free u
  · change ∀ mail ∈ ((s.post.setMachine m x).machine u).sent,
      Sends far u ((s.post.setMachine m x).machine u).got mail
    rw [setMachine_machine]
    split
    · rename_i hu
      rw [hu, hsent, hgot]
      exact hi.sent m
    · exact hi.sent u
  · change Phase far u ((s.post.setMachine m x).machine u).got _
    rw [setMachine_machine, set_thread]
    split
    · rename_i hu
      rw [hu, hgot]
      exact hth
    · exact hi.phase u

theorem Inv.sendReturns (hi : s.Inv far) {next : Point} (h : s.sendReturns m next = .ok s')
    (hth : Phase far m (s.post.machine m).got { s.thread m with point := next }) :
    s'.Inv far := by
  obtain ⟨k, hk, h⟩ := bind_eq_ok.mp h
  cases h
  exact hi.react hk (fun _ _ _ _ _ h => by cases h) (fun _ h => by cases h) hth

theorem Inv.sendMail (hi : s.Inv far) {p : PacketHeader} {q : MailHeader} {string : List UInt8}
    {beyond : Nat → UInt8} {fresh : Nat → Nat → UInt8} {lost : Bool} {next : Point}
    (h : s.sendMail m p q string beyond fresh lost next = .ok s')
    (hmail : Sends far m (s.post.machine m).got (State.mailOf m p q (overlay beyond 0 string)))
    (hth : Phase far m (s.post.machine m).got
      { s.thread m with outPktHdr := p, outMailHdr := q, point := next }) : s'.Inv far := by
  obtain ⟨k, hk, h⟩ := bind_eq_ok.mp h
  cases h
  obtain ⟨t, hflow⟩ := hi.flow
  obtain ⟨-, hboxes, packet, -, hgains⟩ := State.send_gains rfl hk
  refine ⟨hflow.step hk, hboxes.trans hi.boxes, fun u => (hgains u).sendBusy.trans (hi.free u),
    fun u x hx => ?_, fun u => ?_⟩
  · change Sends far u (k.machine u).got x
    change x ∈ (k.machine u).sent at hx
    rw [(hgains u).resembles.got]
    rw [(hgains u).sent, List.mem_append] at hx
    rcases hx with hx | hx
    · exact hi.sent u x hx
    · split at hx
      · rename_i hu
        rw [List.mem_singleton.mp hx, hu.2]
        exact hmail
      · cases hx
  · change Phase far u (k.machine u).got _
    rw [(hgains u).resembles.got, set_thread]
    split
    · rename_i hu
      rw [hu]
      exact hth
    · exact hi.phase u

/-- The message that `Receive` takes, and what is printed of it. -/
theorem receiveMail_eq_ok {box : MailBoxAddress} {next : Point}
    (h : s.receiveMail m box next = .ok s') : ∃ mail message k,
      mail ∈ (s.post.machine m).putInto box ∧
      stringAt (overlay (s.thread m).buffer 0 mail.data) 0 maxMailSize = .ok message ∧
      s.post.step (m, .get box) = .ok k ∧
      (∀ u, (k.machine u).sent = (s.post.machine u).sent ∧
        (k.machine u).sendBusy = (s.post.machine u).sendBusy ∧
        (k.machine u).got = if u = m then
          Function.update (s.post.machine m).got box ((s.post.machine m).got box ++ [mail])
          else (s.post.machine u).got) ∧
      k.numBoxes = s.post.numBoxes ∧
      s' = s.set m k { s.thread m with
        inPktHdr := mail.pktHdr
        inMailHdr := mail.mailHdr
        buffer := overlay (s.thread m).buffer 0 mail.data
        printed := (s.thread m).printed ++ [⟨message, mail.pktHdr.source, mail.mailHdr.source⟩]
        point := next } := by
  obtain ⟨k, hk, h⟩ := bind_eq_ok.mp h
  obtain ⟨x, hx, hk'⟩ := bind_eq_ok.mp hk
  cases hk'
  obtain ⟨mail, rest, hbox, hsent, hgot, hbusy⟩ := get_eq_ok hx
  rw [hbox] at h
  obtain ⟨message, hmessage, h⟩ := bind_eq_ok.mp h
  cases h
  refine ⟨mail, message, _, ?_, hmessage, hk, fun u => ?_, rfl, rfl⟩
  · rw [Machine.putInto, hbox]
    exact List.mem_append_right _ List.mem_cons_self
  · rw [setMachine_machine]
    split
    · rename_i hu
      rw [hu]
      exact ⟨hsent, hbusy, hgot⟩
    · exact ⟨rfl, rfl, rfl⟩

theorem Inv.receiveMail (hi : s.Inv far) {box : MailBoxAddress} {next : Point}
    (h : s.receiveMail m box next = .ok s')
    (hth : ∀ mail message, mail ∈ (s.post.machine m).putInto box →
      stringAt (overlay (s.thread m).buffer 0 mail.data) 0 maxMailSize = .ok message →
      let got := Function.update (s.post.machine m).got box ((s.post.machine m).got box ++ [mail])
      (∀ x ∈ (s.post.machine m).sent, Sends far m got x) ∧
      Phase far m got { s.thread m with
        inPktHdr := mail.pktHdr
        inMailHdr := mail.mailHdr
        buffer := overlay (s.thread m).buffer 0 mail.data
        printed := (s.thread m).printed ++ [⟨message, mail.pktHdr.source, mail.mailHdr.source⟩]
        point := next }) : s'.Inv far := by
  obtain ⟨mail, message, k, hmem, hmessage, hk, hrecords, hboxes, rfl⟩ := receiveMail_eq_ok h
  obtain ⟨hsends, hphase⟩ := hth mail message hmem hmessage
  obtain ⟨t, hflow⟩ := hi.flow
  refine ⟨hflow.step hk, hboxes.trans hi.boxes,
    fun u => (hrecords u).2.1.trans (hi.free u), fun u => ?_, fun u => ?_⟩
  · change ∀ x ∈ (k.machine u).sent, Sends far u (k.machine u).got x
    rw [(hrecords u).1, (hrecords u).2.2]
    split
    · rename_i hu
      rw [hu]
      exact hsends
    · exact hi.sent u
  · change Phase far u (k.machine u).got _
    rw [(hrecords u).2.2, set_thread]
    split
    · rename_i hu
      rw [hu]
      exact hphase
    · exact hi.phase u

theorem Inv.device (hi : s.Inv far) {d : Device} {k : State}
    (h : s.post.step (m, d.event) = .ok k) : Inv far { s with post := k } := by
  have hset : s.set m k (s.thread m) = { s with post := k } := by
    rw [set, Function.update_eq_self]
  rw [← hset]
  exact hi.react h (fun _ _ _ _ _ h => by cases d <;> cases h) (fun _ h => by cases d <;> cases h)
    (hi.phase m)

theorem Inv.advance (hi : s.Inv far) {beyond : Nat → UInt8} {fresh : Nat → Nat → UInt8}
    {lost : Bool} (h : s.advance (far m) m beyond fresh lost = .ok s') : s'.Inv far := by
  have hphase := hi.phase m
  unfold MailTest.advance at h
  dsimp only at h
  cases hpt : (s.thread m).point with
  | send =>
    rw [hpt] at h
    obtain ⟨none, printed, -⟩ := hphase.opens (.inl hpt)
    exact hi.sendMail h (.inl (mailOf_hello _ _ _ _))
      (.opening (.inr (.inl rfl)) none printed fun _ => rfl)
  | sending =>
    rw [hpt] at h
    obtain ⟨none, printed, out⟩ := hphase.opens (.inr (.inl hpt))
    exact hi.sendReturns h
      (.opening (.inr (.inr rfl)) none printed fun _ => out (by simp [hpt]))
  | receive =>
    rw [hpt] at h
    obtain ⟨none, printed, out⟩ := hphase.opens (.inr (.inr hpt))
    refine hi.receiveMail h fun mail message hmem hmessage => ?_
    obtain ⟨u, rfl, hfar⟩ := hi.greeting hmem
    cases (stringAt_data _).symm.trans hmessage
    refine ⟨fun x hx => ?_, .answering u (.inl rfl) hfar ?_ ?_ (out (by simp [hpt])) ⟨rfl, rfl⟩⟩
    · -- nothing has been acknowledged so far
      rcases hi.sent m x hx with hx | ⟨v, -, hgot⟩
      · exact .inl hx
      · rw [none.1] at hgot
        cases hgot
    · rw [none.1]
      exact ⟨Function.update_self .., none.2⟩
    · rw [printed]
      rfl
  | reply =>
    rw [hpt] at h
    obtain ⟨u, partner, greeted, printed, out, received⟩ := hphase.answers (.inl hpt)
    have hack : State.mailOf m
        { (s.thread m).outPktHdr with dest := (s.thread m).inPktHdr.source }
        { (s.thread m).outMailHdr with
          dest := (s.thread m).inMailHdr.source, length := ack.length } (overlay beyond 0 ack) =
        ackMail m u := by
      dsimp only
      rw [out, received.1, received.2]
      exact mailOf_ack m u _ _
    exact hi.sendMail h (.inr ⟨u, hack, greeted.1⟩)
      (.answering u (.inr (.inl rfl)) partner greeted printed out received)
  | replying =>
    rw [hpt] at h
    obtain ⟨u, partner, greeted, printed, out, received⟩ := hphase.answers (.inr (.inl hpt))
    exact hi.sendReturns h
      (.answering u (.inr (.inr rfl)) partner greeted printed out received)
  | receiveAck =>
    rw [hpt] at h
    obtain ⟨u, partner, greeted, printed, -⟩ := hphase.answers (.inr (.inr hpt))
    refine hi.receiveMail h fun mail message hmem hmessage => ?_
    obtain ⟨rfl, -⟩ := hi.acknowledged hmem
    cases (stringAt_ack _).symm.trans hmessage
    have hzero : Function.update (s.post.machine m).got 1
        ((s.post.machine m).got 1 ++ [ackMail (far m) m]) 0 = (s.post.machine m).got 0 :=
      Function.update_of_ne (by decide) _ _
    refine ⟨fun x hx => ?_, .closed u rfl partner ⟨hzero.trans greeted.1, ?_⟩ ?_⟩
    · rw [Sends, hzero]
      exact hi.sent m x hx
    · rw [greeted.2]
      exact Function.update_self ..
    · rw [printed]
      rfl
  | halted =>
    rw [hpt] at h
    cases h

theorem step_inv {e : NetworkAddress × Event} (hi : s.Inv far) (h : step far s e = .ok s') :
    s'.Inv far := by
  obtain ⟨m, e⟩ := e
  cases e with
  | device d =>
    obtain ⟨k, hk, h⟩ := bind_eq_ok.mp h
    cases h
    exact hi.device hk
  | advance beyond fresh lost => exact hi.advance h

theorem new_inv (far : NetworkAddress → NetworkAddress) (inHdr pktHdr : PacketHeader)
    (fresh : Nat → UInt8) (thread : NetworkAddress → Thread) :
    (new inHdr pktHdr fresh thread).Inv far where
  flow := ⟨_, init_flow 10 inHdr pktHdr fresh⟩
  boxes := rfl
  free _ := rfl
  sent _ mail hmail := by cases hmail
  phase _ := .opening (.inl rfl) ⟨rfl, rfl⟩ rfl fun h => absurd rfl h

/-! ## What can go wrong -/

/-- The thread of `m` waits for mail, which the dummy `Condition::Wait` does not do. -/
def Waits (s : MailTest) (m : NetworkAddress) : Prop :=
  (s.thread m).point = .receive ∧ (s.post.machine m).messages 0 = [] ∨
    (s.thread m).point = .receiveAck ∧ (s.post.machine m).messages 1 = []

/-- Who has been told that his greeting arrived is right: the machine that he greeted has
printed it. -/
theorem Inv.halted (hi : s.Inv far) (h : (s.thread m).point = .halted) :
    (s.thread (far m)).printed.head? = some (helloLine m) := by
  have hack : (s.post.machine m).got 1 = [ackMail (far m) m] := by
    cases hi.phase m with
    | opening point => simp [h] at point
    | answering u point => simp [h] at point
    | closed u _ _ greeted _ => exact greeted.2
  have hput : ackMail (far m) m ∈ (s.post.machine m).putInto 1 := by
    rw [Machine.putInto, hack]
    exact List.mem_append_left _ (List.mem_singleton_self _)
  obtain ⟨-, hgot⟩ := hi.acknowledged hput
  cases hi.phase (far m) with
  | opening _ none _ _ =>
    rw [none.1] at hgot
    cases hgot
  | answering u _ _ greeted printed _ _ =>
    rw [greeted.1] at hgot
    obtain rfl : u = m := congrArg (fun x => x.pktHdr.source) (List.cons.inj hgot).1
    rw [printed]
    rfl
  | closed u _ _ greeted printed =>
    rw [greeted.1] at hgot
    obtain rfl : u = m := congrArg (fun x => x.pktHdr.source) (List.cons.inj hgot).1
    rw [printed]
    rfl

def idle : Thread := ⟨.send, ⟨0, 0, 0⟩, ⟨0, 0, 0⟩, ⟨0, 0, 0⟩, ⟨0, 0, 0⟩, fun _ => 255, []⟩

end MailTest
end Nachos.Post

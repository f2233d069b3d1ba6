import Mathlib.Data.List.Forall2
import Mathlib.Tactic.MkIffOfInductiveProp
import Nachos.Lib.Run
import Nachos.Network.Post

/-! Mail is delivered faithfully. What is on its way to a machine is a sequence
of messages cut into four parts: those already in a box, one in the postal
worker's buffer, one in the buffer of the device, and those in the socket. Every
event of the receiving side moves the cut between two parts by one message and
leaves the sequence as it is; a message that is sent is added to its end. -/

namespace Nachos.Post
open Lib

/-! ## Messages as bytes -/

def Mail.payload (x : Mail) : List UInt8 := x.mailHdr.bytes ++ x.data

def Mail.wire (x : Mail) : List UInt8 := x.pktHdr.bytes ++ x.payload

/-- A message that `Send` lets through, on its way to `m`. -/
structure Mail.Legal (x : Mail) (numBoxes : Int) (m : NetworkAddress) : Prop where
  dest : x.pktHdr.dest = m
  length : x.pktHdr.length = x.mailHdr.length + headerSize
  data : x.data.length = x.mailHdr.length.toNat
  small : x.mailHdr.length.toNat ≤ maxMailSize
  box : ValidBox numBoxes x.mailHdr.dest

/-- A packet that, read into any buffer, shows the message. -/
def Wire (packet : List UInt8) (x : Mail) : Prop :=
  ∀ fresh, HasBytes (overlay fresh 0 packet) 0 x.wire

theorem Header.bytes_length (h : Header) : h.bytes.length = headerSize := wordsBytes_length _

theorem Header.ofBytes_eq {m : Nat → UInt8} {pos : Nat} {h : Header}
    (hm : HasBytes m pos h.bytes) : Header.ofBytes m pos = h := by
  have h₀ : wordOf m pos = h.dest := hm.wordOf (j := 0) rfl
  have h₁ : wordOf m (pos + 4) = h.source := hm.wordOf (j := 1) rfl
  have h₂ : wordOf m (pos + 8) = h.length := hm.wordOf (j := 2) rfl
  rw [Header.ofBytes, h₀, h₁, h₂]

namespace Mail.Legal
variable {x : Mail} {numBoxes : Int} {m : NetworkAddress}

theorem pktHdr_toNat (h : x.Legal numBoxes m) :
    x.pktHdr.length.toNat = x.mailHdr.length.toNat + headerSize := by
  have hs := h.small
  rw [h.length, BitVec.toNat_add]
  simp only [headerSize, maxMailSize, BitVec.natCast_eq_ofNat, BitVec.toNat_ofNat] at hs ⊢
  omega

theorem payload_length (h : x.Legal numBoxes m) : x.payload.length = x.pktHdr.length.toNat := by
  rw [h.pktHdr_toNat, payload, List.length_append, Header.bytes_length, h.data, Nat.add_comm]

theorem pktHdr_small (h : x.Legal numBoxes m) : x.pktHdr.length.toNat ≤ maxPacketSize := by
  have hs := h.small
  rw [h.pktHdr_toNat]
  simp only [headerSize, maxMailSize, maxPacketSize] at *
  omega

theorem pktHdr_ne_zero (h : x.Legal numBoxes m) : x.pktHdr.length ≠ 0 := by
  intro hz
  have := h.pktHdr_toNat
  rw [hz] at this
  simp at this

theorem wire_length (h : x.Legal numBoxes m) : x.wire.length ≤ maxWireSize := by
  have hs := h.pktHdr_small
  rw [wire, List.length_append, Header.bytes_length, h.payload_length]
  simp only [headerSize, maxPacketSize, maxWireSize] at *
  omega

end Mail.Legal

/-! ## What is on its way to one machine -/

/-- The messages for one machine, by where they are. -/
structure Transit where
  delivered : List Mail
  held : List Mail
  boxed : List Mail
  queued : List Mail

def Transit.all (t : Transit) : List Mail := t.delivered ++ t.held ++ t.boxed ++ t.queued

/-- The postal worker's buffer. -/
inductive Machine.Holding (x : Machine) : List Mail → Prop
  | none (h : x.worker ≠ .received) : x.Holding []
  | one (mail : Mail) (h : x.worker = .received) (hdr : x.pktHdr = mail.pktHdr)
    (bytes : HasBytes x.buffer 0 mail.payload) : x.Holding [mail]

/-- The buffer of the device. While there is a packet in it there is one `V` that
the worker has not followed by a `Receive`. -/
inductive Machine.Buffered (x : Machine) : List Mail → Prop
  | none (empty : x.inHdr.length = 0) (value : x.messageAvailable = 0) (h : x.worker ≠ .awake) :
    x.Buffered []
  | one (mail : Mail) (hdr : x.inHdr = mail.pktHdr) (bytes : HasBytes x.inbox 0 mail.payload)
    (token : x.messageAvailable + (if x.worker = .awake then 1 else 0) = 1) : x.Buffered [mail]

structure Machine.Carries (x : Machine) (t : Transit) : Prop where
  put : ∀ b, x.putInto b = t.delivered.filter fun mail => mail.mailHdr.dest = b
  held : x.Holding t.held
  boxed : x.Buffered t.boxed
  queued : List.Forall₂ Wire x.socket t.queued

section
variable {x x' : Machine} {t : Transit} {numBoxes : Int} {m : NetworkAddress}

theorem Machine.Holding.congr {l : List Mail} (h : x.Holding l) (hw : x'.worker = x.worker)
    (hp : x'.pktHdr = x.pktHdr) (hb : x'.buffer = x.buffer) : x'.Holding l := by
  cases h with
  | none h => exact .none (hw ▸ h)
  | one mail h hdr bytes => exact .one mail (hw.trans h) (hp.trans hdr) (hb ▸ bytes)

theorem Machine.Buffered.congr {l : List Mail} (h : x.Buffered l) (hi : x'.inHdr = x.inHdr)
    (hb : x'.inbox = x.inbox) (ha : x'.messageAvailable = x.messageAvailable)
    (hw : x'.worker = .awake ↔ x.worker = .awake) : x'.Buffered l := by
  cases h with
  | none empty value h => exact .none (hi ▸ empty) (ha ▸ value) (fun h' => h (hw.mp h'))
  | one mail hdr bytes token =>
    refine .one mail (hi.trans hdr) (hb ▸ bytes) ?_
    simp only [ha, hw]
    exact token

/-- A packet read from the wire. -/
theorem Wire.read {packet : List UInt8} {mail : Mail} (h : Wire packet mail)
    (fresh : Nat → UInt8) : Header.ofBytes (overlay fresh 0 packet) 0 = mail.pktHdr ∧
      HasBytes (overlay fresh 0 packet) headerSize mail.payload := by
  obtain ⟨hhdr, hpayload⟩ := hasBytes_append.mp (h fresh)
  rw [Header.bytes_length, Nat.zero_add] at hpayload
  exact ⟨Header.ofBytes_eq hhdr, hpayload⟩

/-- A poll reads the next packet only into an empty buffer, and never asserts. -/
theorem Machine.Carries.checkPktAvail (h : x.Carries t)
    (hl : ∀ mail ∈ t.all, mail.Legal numBoxes m) (fresh : Nat → UInt8) :
    ∃ x' t', x.checkPktAvail m fresh = .ok x' ∧ x'.Carries t' ∧ t'.all = t.all ∧
      x'.sent = x.sent := by
  obtain ⟨delivered, held, boxed, queued⟩ := t
  obtain ⟨hput, hheld, hboxed, hqueued⟩ := h
  unfold Machine.checkPktAvail
  cases hboxed with
  | one mail hdr bytes token =>
    have hlegal : mail.Legal numBoxes m := hl mail (by simp [Transit.all])
    refine ⟨x, ⟨delivered, held, [mail], queued⟩, ?_, ⟨hput, hheld, .one mail hdr bytes token,
      hqueued⟩, rfl, rfl⟩
    rw [if_pos (by rw [hdr]; exact hlegal.pktHdr_ne_zero)]
  | none empty value hw =>
    rw [if_neg (by simp [empty])]
    cases hs : x.socket with
    | nil =>
      exact ⟨x, ⟨delivered, held, [], queued⟩, rfl, ⟨hput, hheld, .none empty value hw, hqueued⟩,
        rfl, rfl⟩
    | cons packet rest =>
      rw [hs] at hqueued
      cases hqueued with
      | @cons _ mail _ later hwire hlater =>
        have hlegal : mail.Legal numBoxes m := hl mail (by simp [Transit.all])
        obtain ⟨hhdr, hpayload⟩ := hwire.read fresh
        dsimp only
        rw [hhdr, if_pos ⟨hlegal.dest, hlegal.pktHdr_small⟩]
        have hinbox : HasBytes (overlay x.inbox 0 (bytesAt (overlay fresh 0 packet) headerSize
            mail.pktHdr.length.toNat)) 0 mail.payload :=
          hpayload.copy (Nat.le_of_eq hlegal.payload_length)
        refine ⟨_, ⟨delivered, held, [mail], later⟩, rfl, ⟨hput, hheld.congr rfl rfl rfl,
          .one mail rfl hinbox ?_, hlater⟩, ?_, rfl⟩
        · simp [value, hw]
        · simp [Transit.all]

theorem Machine.Carries.wake (h : x.Carries t) (hw : x.wake = .ok x') :
    x'.Carries t ∧ x'.sent = x.sent := by
  obtain ⟨⟨hwait, hvalue⟩, hk⟩ := ite_error_eq_ok.mp hw
  cases hk
  obtain ⟨delivered, held, boxed, queued⟩ := t
  obtain ⟨hput, hheld, hboxed, hqueued⟩ := h
  refine ⟨⟨hput, ?_, ?_, hqueued⟩, rfl⟩
  · cases hheld with
    | none h => exact .none (by simp)
    | one mail h hdr bytes => rw [hwait] at h; cases h
  · cases hboxed with
    | none empty value hw => exact absurd value hvalue
    | one mail hdr bytes token =>
      refine .one mail hdr bytes ?_
      simp only [hwait, reduceCtorEq, if_false, if_true] at token ⊢
      omega

theorem Machine.Carries.receive (h : x.Carries t) (hl : ∀ mail ∈ t.all, mail.Legal numBoxes m)
    (hr : x.receive = .ok x') : ∃ t', x'.Carries t' ∧ t'.all = t.all ∧ x'.sent = x.sent := by
  obtain ⟨hawake, hk⟩ := ite_error_eq_ok.mp hr
  cases hk
  obtain ⟨delivered, held, boxed, queued⟩ := t
  obtain ⟨hput, hheld, hboxed, hqueued⟩ := h
  cases hheld with
  | one mail h hdr bytes => rw [hawake] at h; cases h
  | none hw =>
    cases hboxed with
    | none empty value hw => exact absurd hawake hw
    | one mail hdr bytes token =>
      have hlegal : mail.Legal numBoxes m := hl mail (by simp [Transit.all])
      refine ⟨⟨delivered, [mail], [], queued⟩, ⟨hput, ?_, ?_, hqueued⟩, by simp [Transit.all],
        rfl⟩
      · refine .one mail rfl hdr ?_
        dsimp only
        rw [hdr, if_pos hlegal.pktHdr_ne_zero]
        exact bytes.copy (Nat.le_of_eq hlegal.payload_length)
      · refine .none rfl ?_ (by simp)
        simp only [hawake, if_true] at token
        exact Nat.add_eq_right.mp token

/-- What the worker has in its buffer is put into its box, as it was sent. -/
theorem Machine.Carries.putMail (h : x.Carries t) (hl : ∀ mail ∈ t.all, mail.Legal numBoxes m)
    (hw : x.worker = .received) :
    ∃ x' t', x.put numBoxes = .ok x' ∧ x'.Carries t' ∧ t'.all = t.all ∧ x'.sent = x.sent := by
  obtain ⟨delivered, held, boxed, queued⟩ := t
  obtain ⟨hput, hheld, hboxed, hqueued⟩ := h
  cases hheld with
  | none h => exact absurd hw h
  | one mail h hdr bytes =>
    have hlegal : mail.Legal numBoxes m := hl mail (by simp [Transit.all])
    obtain ⟨hmail, hdata⟩ := hasBytes_append.mp bytes
    rw [Header.bytes_length, Nat.zero_add] at hdata
    have hdata' := hdata.bytesAt_eq
    rw [hlegal.data] at hdata'
    unfold Machine.put
    dsimp only
    rw [if_pos hw, Header.ofBytes_eq hmail, if_pos hlegal.box, if_pos hlegal.small, hdata', hdr]
    refine ⟨_, ⟨delivered ++ [mail], [], boxed, queued⟩, rfl, ⟨fun b => ?_, .none (by simp), ?_,
      hqueued⟩, by simp [Transit.all], rfl⟩
    · rw [List.filter_append, ← hput b]
      unfold Machine.putInto
      simp only [Function.update_apply]
      by_cases hb : b = mail.mailHdr.dest
      · simp [hb]
      · simp [hb, Ne.symm hb]
    · exact hboxed.congr rfl rfl rfl (by simp [hw])

theorem Machine.Carries.get {b : MailBoxAddress} (h : x.Carries t)
    (hg : x.get numBoxes b = .ok x') : x'.Carries t ∧ x'.sent = x.sent := by
  obtain ⟨-, hk⟩ := ite_error_eq_ok.mp hg
  split at hk
  · cases hk
  rename_i mail rest hm
  obtain ⟨-, hk⟩ := ite_error_eq_ok.mp hk
  cases hk
  obtain ⟨hput, hheld, hboxed, hqueued⟩ := h
  refine ⟨⟨fun b' => ?_, hheld.congr rfl rfl rfl, hboxed.congr rfl rfl rfl Iff.rfl, hqueued⟩, rfl⟩
  rw [← hput b']
  unfold Machine.putInto
  simp only [Function.update_apply]
  split
  · rename_i hb; rw [hb, hm]; simp
  · rfl

/-- Nothing that the receiving side works on is changed, the socket apart. -/
@[mk_iff]
structure Machine.Resembles (x' x : Machine) : Prop where
  inHdr : x'.inHdr = x.inHdr
  inbox : x'.inbox = x.inbox
  messageAvailable : x'.messageAvailable = x.messageAvailable
  worker : x'.worker = x.worker
  pktHdr : x'.pktHdr = x.pktHdr
  buffer : x'.buffer = x.buffer
  messages : x'.messages = x.messages
  got : x'.got = x.got

theorem Machine.Resembles.trans {x'' : Machine} (h : x''.Resembles x') (h' : x'.Resembles x) :
    x''.Resembles x :=
  ⟨h.inHdr.trans h'.inHdr, h.inbox.trans h'.inbox, h.messageAvailable.trans h'.messageAvailable,
    h.worker.trans h'.worker, h.pktHdr.trans h'.pktHdr, h.buffer.trans h'.buffer,
    h.messages.trans h'.messages, h.got.trans h'.got⟩

theorem Machine.Carries.congr (h : x.Carries t) (hx : x'.Resembles x) (hs : x'.socket = x.socket) :
    x'.Carries t where
  put b := by rw [Machine.putInto, hx.messages, hx.got]; exact h.put b
  held := h.held.congr hx.worker hx.pktHdr hx.buffer
  boxed := h.boxed.congr hx.inHdr hx.inbox hx.messageAvailable (by rw [hx.worker])
  queued := hs ▸ h.queued

theorem Machine.Carries.arrive {l : List Mail} {packets : List (List UInt8)} (h : x.Carries t)
    (hx : x'.Resembles x) (hs : x'.socket = x.socket ++ packets)
    (hl : List.Forall₂ Wire packets l) : x'.Carries { t with queued := t.queued ++ l } where
  put b := by rw [Machine.putInto, hx.messages, hx.got]; exact h.put b
  held := h.held.congr hx.worker hx.pktHdr hx.buffer
  boxed := h.boxed.congr hx.inHdr hx.inbox hx.messageAvailable (by rw [hx.worker])
  queued := by rw [hs]; exact List.rel_append h.queued hl

end

/-! ## Sending -/

theorem mailOf_legal {numBoxes : Int} {m : NetworkAddress} {pktHdr : PacketHeader}
    {mailHdr : MailHeader} {data : Nat → UInt8} (hl : mailHdr.length.toNat ≤ maxMailSize)
    (hb : ValidBox numBoxes mailHdr.dest) :
    (State.mailOf m pktHdr mailHdr data).Legal numBoxes pktHdr.dest :=
  ⟨rfl, rfl, by simp [State.mailOf], hl, hb⟩

theorem Header.hasBytes_concat (h : Header) (fresh : Nat → UInt8) {data : Nat → UInt8}
    {bs : List UInt8} {n : Nat} (hd : HasBytes data 0 bs) (hn : bs.length ≤ n) :
    HasBytes (h.concat fresh data n) 0 (h.bytes ++ bs) := by
  refine hasBytes_append.mpr ⟨hasBytes_overlay.overlay_behind ?_, ?_⟩
  · exact Nat.le_of_eq (by rw [Header.bytes_length, Nat.zero_add])
  · rw [Header.bytes_length, Nat.zero_add]
    exact hd.copy hn

/-- The packet that `Send` builds shows the message it was called with. -/
theorem wire_mailOf {numBoxes : Int} {m d : NetworkAddress} {pktHdr : PacketHeader}
    {mailHdr : MailHeader} {data : Nat → UInt8} {mail : Mail}
    (hm : mail = State.mailOf m pktHdr mailHdr data) (hl : mail.Legal numBoxes d)
    (fresh fresh' : Nat → UInt8) :
    Wire (bytesAt (mail.pktHdr.concat fresh' (mailHdr.concat fresh data mailHdr.length.toNat)
      mail.pktHdr.length.toNat) 0 maxWireSize) mail := by
  have hpayload : HasBytes (mailHdr.concat fresh data mailHdr.length.toNat) 0 mail.payload := by
    rw [hm]
    exact mailHdr.hasBytes_concat fresh hasBytes_bytesAt (Nat.le_of_eq (bytesAt_length _ _ _))
  have hwire := mail.pktHdr.hasBytes_concat fresh' hpayload (Nat.le_of_eq hl.payload_length)
  exact fun _ => hwire.copy hl.wire_length

/-- What a machine does by itself: everything but the sending. -/
def Machine.react (x : Machine) (numBoxes : Int) (m : NetworkAddress) : Event → Except Fault Machine
  | .send _ _ _ _ _ => .error .disabled
  | .sendDone => x.sendDone
  | .sendReturns => x.sendReturns
  | .checkPktAvail fresh => x.checkPktAvail m fresh
  | .wake => x.wake
  | .receive => x.receive
  | .put => x.put numBoxes
  | .get b => x.get numBoxes b

namespace State
variable {k k' : State} {t : NetworkAddress → Transit}

/-- What an event of the sending side does to a machine: `packets` appear in its
socket, `mails` in its record of what it has sent. -/
@[mk_iff]
structure Gains (x x' : Machine) (packets : List (List UInt8)) (mails : List Mail) : Prop where
  resembles : x'.Resembles x
  sendBusy : x'.sendBusy = x.sendBusy
  socket : x'.socket = x.socket ++ packets
  sent : x'.sent = x.sent ++ mails

theorem networkSend_gains {m : NetworkAddress} {hdr : PacketHeader} {data fresh : Nat → UInt8}
    {lost : Bool} (hs : k.networkSend m hdr data fresh lost = .ok k') :
    k'.numBoxes = k.numBoxes ∧ ∀ u, Gains (k.machine u) (k'.machine u)
      (if lost = false ∧ u = hdr.dest then
        [bytesAt (hdr.concat fresh data hdr.length.toNat) 0 maxWireSize] else []) [] := by
  obtain ⟨-, hs⟩ := ite_error_eq_ok.mp hs
  cases lost with
  | true =>
    cases hs
    refine ⟨rfl, fun u => ?_⟩
    by_cases hu : u = m <;> simp [gains_iff, Machine.resembles_iff, setMachine, hu]
  | false =>
    cases hs
    refine ⟨rfl, fun u => ?_⟩
    by_cases hd : u = hdr.dest <;> by_cases hu : u = m <;> by_cases hm : hdr.dest = m <;>
      simp_all [gains_iff, Machine.resembles_iff, setMachine]

theorem Gains.trans {x x' x'' : Machine} {ps ps' : List (List UInt8)} {ms ms' : List Mail}
    (h : Gains x x' ps ms) (h' : Gains x' x'' ps' ms') :
    Gains x x'' (ps ++ ps') (ms ++ ms') where
  resembles := h'.resembles.trans h.resembles
  sendBusy := h'.sendBusy.trans h.sendBusy
  socket := by rw [h'.socket, h.socket, List.append_assoc]
  sent := by rw [h'.sent, h.sent, List.append_assoc]

theorem record_gains (k : State) (m : NetworkAddress) (mail : Mail) (lost : Bool)
    (u : NetworkAddress) : Gains (k.machine u) ((k.record m mail lost).machine u) []
      (if lost = false ∧ u = m then [mail] else []) := by
  by_cases hu : u = m <;> cases lost <;>
    simp [gains_iff, Machine.resembles_iff, record, setMachine, hu]

/-- What `Send` does to each machine. -/
theorem send_gains {m : NetworkAddress} {pktHdr : PacketHeader} {mailHdr : MailHeader}
    {data : Nat → UInt8} {fresh : Nat → Nat → UInt8} {lost : Bool} {mail : Mail}
    (hm : mail = mailOf m pktHdr mailHdr data)
    (hs : k.send m pktHdr mailHdr data fresh lost = .ok k') :
    mail.Legal k.numBoxes mail.pktHdr.dest ∧ k'.numBoxes = k.numBoxes ∧
    ∃ packet, Wire packet mail ∧ ∀ u, Gains (k.machine u) (k'.machine u)
      (if lost = false ∧ u = mail.pktHdr.dest then [packet] else [])
      (if lost = false ∧ u = m then [mail] else []) := by
  obtain ⟨hl, hs⟩ := ite_error_eq_ok.mp hs
  obtain ⟨hb, hs⟩ := ite_error_eq_ok.mp hs
  obtain ⟨k₁, hn, hk⟩ := bind_eq_ok.mp hs
  have hmail : mailOf m { pktHdr with source := m, length := mailHdr.length + headerSize } mailHdr
    data = mail := hm.symm
  have hlegal : mail.Legal k.numBoxes mail.pktHdr.dest := by
    rw [hm]
    exact mailOf_legal hl hb
  have hpkt : mail.pktHdr =
      { pktHdr with source := m, length := mailHdr.length + headerSize } := by rw [hm]; rfl
  obtain ⟨hboxes, hgains⟩ := networkSend_gains hn
  rw [hmail] at hk
  cases hk
  refine ⟨hlegal, hboxes, _, wire_mailOf hm hlegal (fresh 0) (fresh 1), fun u => ?_⟩
  have hboth := (hgains u).trans (record_gains k₁ m mail lost u)
  rw [List.append_nil, List.nil_append] at hboth
  rw [hpkt]
  exact hboth

/-! ## The network -/

/-- What is on its way in the network: every machine carries its messages, all
of them legal, and from each sender in the order in which it has sent them. -/
structure Flow (k : State) (t : NetworkAddress → Transit) : Prop where
  carries : ∀ m, (k.machine m).Carries (t m)
  legal : ∀ m, ∀ mail ∈ (t m).all, mail.Legal k.numBoxes m
  source : ∀ s, ∀ mail ∈ (k.machine s).sent, mail.pktHdr.source = s
  order : ∀ s m, (k.machine s).sent.filter (fun mail => mail.pktHdr.dest = m) =
    (t m).all.filter fun mail => mail.pktHdr.source = s

/-- A machine moves what it carries. -/
theorem Flow.setMachine {m : NetworkAddress} {x : Machine} {tm : Transit} (h : k.Flow t)
    (hc : x.Carries tm) (ha : tm.all = (t m).all) (hs : x.sent = (k.machine m).sent) :
    (k.setMachine m x).Flow (Function.update t m tm) := by
  have hsent (u : NetworkAddress) : ((k.setMachine m x).machine u).sent = (k.machine u).sent := by
    simp only [State.setMachine, Function.update_apply]
    split
    · rename_i hu; rw [hu]; exact hs
    · rfl
  have hall (u : NetworkAddress) : (Function.update t m tm u).all = (t u).all := by
    rw [Function.update_apply]
    split
    · rename_i hu; rw [hu]; exact ha
    · rfl
  refine ⟨fun u => ?_, fun u mail hm => h.legal u mail (hall u ▸ hm),
    fun s mail hm => h.source s mail (hsent s ▸ hm), fun s u => ?_⟩
  · simp only [State.setMachine, Function.update_apply]
    split
    · exact hc
    · exact h.carries u
  · rw [hsent, hall]; exact h.order s u

/-- A message joins the end of what is on its way. -/
theorem Flow.send {m : NetworkAddress} {pktHdr : PacketHeader} {mailHdr : MailHeader}
    {data : Nat → UInt8} {fresh : Nat → Nat → UInt8} {lost : Bool} (h : k.Flow t)
    (hs : k.send m pktHdr mailHdr data fresh lost = .ok k') : ∃ t', k'.Flow t' := by
  obtain ⟨hlegal, hboxes, packet, hwire, hgains⟩ := send_gains rfl hs
  generalize hmail : mailOf m pktHdr mailHdr data = mail at hlegal hwire hgains
  have hsource : mail.pktHdr.source = m := by rw [← hmail]; rfl
  let new (u : NetworkAddress) : List Mail :=
    if lost = false ∧ u = mail.pktHdr.dest then [mail] else []
  have hall (u : NetworkAddress) : Transit.all { t u with queued := (t u).queued ++ new u } =
      (t u).all ++ new u := by simp [Transit.all]
  refine ⟨fun u => { t u with queued := (t u).queued ++ new u }, fun u => ?_, fun u x hx => ?_,
    fun s x hx => ?_, fun s u => ?_⟩
  · refine (h.carries u).arrive (hgains u).resembles (hgains u).socket ?_
    by_cases hu : lost = false ∧ u = mail.pktHdr.dest
    · simp only [new, if_pos hu]; exact .cons hwire .nil
    · simp only [new, if_neg hu]; exact .nil
  · rw [hall, List.mem_append] at hx
    rw [hboxes]
    rcases hx with hx | hx
    · exact h.legal u x hx
    · by_cases hu : lost = false ∧ u = mail.pktHdr.dest
      · simp only [new, if_pos hu, List.mem_singleton] at hx
        rw [hx, hu.2]; exact hlegal
      · simp [new, if_neg hu] at hx
  · rw [(hgains s).sent, List.mem_append] at hx
    rcases hx with hx | hx
    · exact h.source s x hx
    · by_cases hu : lost = false ∧ s = m
      · simp only [if_pos hu, List.mem_singleton] at hx
        rw [hx, hu.2]; exact hsource
      · simp [if_neg hu] at hx
  · rw [hall, (hgains s).sent, List.filter_append, List.filter_append, h.order s u]
    congr 1
    by_cases hl : lost = false <;> by_cases hu : u = mail.pktHdr.dest <;> by_cases hsm : s = m <;>
      simp [new, hl, hu, hsm, hsource, eq_comm]

theorem step_cases {m : NetworkAddress} {e : Event} (hs : k.step (m, e) = .ok k') :
    (∃ pktHdr mailHdr data fresh lost, e = .send pktHdr mailHdr data fresh lost) ∨
    ∃ x, (k.machine m).react k.numBoxes m e = .ok x ∧ k' = k.setMachine m x := by
  cases e with
  | send => exact .inl ⟨_, _, _, _, _, rfl⟩
  | sendDone | sendReturns | checkPktAvail | wake | receive | put | get =>
    obtain ⟨x, hx, hk⟩ := bind_eq_ok.mp hs
    cases hk
    exact .inr ⟨x, hx, rfl⟩

theorem Flow.step {e : NetworkAddress × Event} (h : k.Flow t) (hs : k.step e = .ok k') :
    ∃ t', k'.Flow t' := by
  obtain ⟨m, e⟩ := e
  have hcarries := h.carries m
  have hlegal := h.legal m
  rcases step_cases hs with ⟨pktHdr, mailHdr, data, fresh, lost, rfl⟩ | ⟨x, hx, rfl⟩
  · exact h.send hs
  cases e with
  | send => cases hx
  | sendDone | sendReturns =>
    obtain ⟨-, hx⟩ := ite_error_eq_ok.mp hx
    cases hx
    exact ⟨_, h.setMachine (hcarries.congr ⟨rfl, rfl, rfl, rfl, rfl, rfl, rfl, rfl⟩ rfl) rfl rfl⟩
  | checkPktAvail fresh =>
    obtain ⟨x', t', hx', hc, ha, hsent⟩ := hcarries.checkPktAvail hlegal fresh
    cases hx.symm.trans hx'
    exact ⟨_, h.setMachine hc ha hsent⟩
  | wake =>
    obtain ⟨hc, hsent⟩ := hcarries.wake hx
    exact ⟨_, h.setMachine hc rfl hsent⟩
  | receive =>
    obtain ⟨t', hc, ha, hsent⟩ := hcarries.receive hlegal hx
    exact ⟨_, h.setMachine hc ha hsent⟩
  | put =>
    have hw := (ite_error_eq_ok.mp hx).1
    obtain ⟨x', t', hx', hc, ha, hsent⟩ := hcarries.putMail hlegal hw
    cases hx.symm.trans hx'
    exact ⟨_, h.setMachine hc ha hsent⟩
  | get b =>
    obtain ⟨hc, hsent⟩ := hcarries.get hx
    exact ⟨_, h.setMachine hc rfl hsent⟩

end State

open State

theorem init_flow (numBoxes : Int) (inHdr pktHdr : PacketHeader) (fresh : Nat → UInt8) :
    (init numBoxes inHdr pktHdr fresh).Flow fun _ => ⟨[], [], [], []⟩ where
  carries _ := ⟨fun _ => rfl, .none (by simp [init]), .none rfl rfl (by simp [init]), .nil⟩
  legal _ mail hm := by simp [Transit.all] at hm
  source _ mail hm := by simp [init] at hm
  order _ _ := rfl

theorem Machine.react_buffer {x y : Machine} {numBoxes : Int} {m : NetworkAddress} {e : Event}
    (h : x.react numBoxes m e = .ok y) (hfull : x.inHdr.length ≠ 0) (he : e ≠ .receive) :
    y.inHdr = x.inHdr ∧ y.inbox = x.inbox := by
  cases e with
  | send => cases h
  | receive => exact absurd rfl he
  | checkPktAvail fresh =>
    change x.checkPktAvail m fresh = _ at h
    unfold Machine.checkPktAvail at h
    rw [if_pos hfull] at h
    cases h
    exact ⟨rfl, rfl⟩
  | get b =>
    obtain ⟨-, h⟩ := ite_error_eq_ok.mp h
    split at h
    · cases h
    · obtain ⟨-, h⟩ := ite_error_eq_ok.mp h
      cases h
      exact ⟨rfl, rfl⟩
  | put =>
    obtain ⟨-, h⟩ := ite_error_eq_ok.mp h
    obtain ⟨-, h⟩ := ite_error_eq_ok.mp h
    obtain ⟨-, h⟩ := ite_error_eq_ok.mp h
    cases h
    exact ⟨rfl, rfl⟩
  | sendDone | sendReturns | wake =>
    obtain ⟨-, h⟩ := ite_error_eq_ok.mp h
    cases h
    exact ⟨rfl, rfl⟩

/-- A packet stays in the buffer of the device until the postal worker takes it. -/
theorem buffer_kept {k k' : State} {e : NetworkAddress × Event} {m : NetworkAddress}
    (hs : k.step e = .ok k') (hfull : (k.machine m).inHdr.length ≠ 0) (he : e ≠ (m, .receive)) :
    (k'.machine m).inHdr = (k.machine m).inHdr ∧ (k'.machine m).inbox = (k.machine m).inbox := by
  obtain ⟨m', e⟩ := e
  rcases step_cases hs with ⟨pktHdr, mailHdr, data, fresh, lost, rfl⟩ | ⟨x, hx, rfl⟩
  · obtain ⟨-, -, _, -, hgains⟩ := send_gains rfl hs
    exact ⟨(hgains m).resembles.inHdr, (hgains m).resembles.inbox⟩
  · simp only [setMachine, Function.update_apply]
    split
    · rename_i hm
      subst hm
      exact Machine.react_buffer hx hfull fun hreceive => he (by rw [hreceive])
    · exact ⟨rfl, rfl⟩

/-- What has been put into a box, of one sender's messages. -/
theorem State.Flow.put_prefix {k : State} {t : NetworkAddress → Transit} (h : k.Flow t)
    (s m : NetworkAddress) (b : MailBoxAddress) :
    ((k.machine m).putInto b).filter (fun mail => mail.pktHdr.source = s) <+:
      (k.machine s).sent.filter fun mail => mail.pktHdr.dest = m ∧ mail.mailHdr.dest = b := by
  have hsent : (k.machine s).sent.filter (fun mail => mail.pktHdr.dest = m ∧ mail.mailHdr.dest = b)
      = ((t m).all.filter fun mail => mail.mailHdr.dest = b).filter
        fun mail => mail.pktHdr.source = s := by
    rw [List.filter_comm, ← h.order s m, List.filter_filter]
    exact List.filter_congr fun mail _ => by simp [Bool.and_comm]
  rw [hsent, (h.carries m).put b]
  have hinit : (t m).delivered <+: (t m).all := by
    unfold Transit.all
    rw [List.append_assoc, List.append_assoc]
    exact List.prefix_append _ _
  exact (hinit.filter _).filter _

theorem mem_putInto {k : State} {t : NetworkAddress → Transit} (h : k.Flow t)
    {m : NetworkAddress} {b : MailBoxAddress} {mail : Mail} (hm : mail ∈ (k.machine m).putInto b) :
    mail ∈ (k.machine mail.pktHdr.source).sent := by
  have hfilter : mail ∈ ((k.machine m).putInto b).filter
      fun x => x.pktHdr.source = mail.pktHdr.source := by simp [hm]
  exact List.mem_of_mem_filter ((h.put_prefix mail.pktHdr.source m b).subset hfilter)

/-- Mail is delivered faithfully. -/
theorem mail_faithful (numBoxes : Int) (inHdr pktHdr : PacketHeader) (fresh : Nat → UInt8)
    {es : List (NetworkAddress × Event)} {k : State}
    (hr : Run step (init numBoxes inHdr pktHdr fresh) es k) :
    -- box `b` of machine `m`, and the messages of machine `s`
    (∀ s m b, ((k.machine m).putInto b).filter (fun mail => mail.pktHdr.source = s) <+:
      (k.machine s).sent.filter fun mail => mail.pktHdr.dest = m ∧ mail.mailHdr.dest = b) ∧
    -- the same where no other machine sends
    (∀ s, (∀ s', s' ≠ s → (k.machine s').sent = []) → ∀ m b, (k.machine m).putInto b <+:
      (k.machine s).sent.filter fun mail => mail.pktHdr.dest = m ∧ mail.mailHdr.dest = b) ∧
    (∀ m b, ∀ mail ∈ (k.machine m).putInto b, mail ∈ (k.machine mail.pktHdr.source).sent ∧
      mail.pktHdr.length = mail.mailHdr.length + headerSize ∧
      mail.data.length = mail.mailHdr.length.toNat) ∧
    (∀ m e k', (k.machine m).inHdr.length ≠ 0 → k.step e = .ok k' → e ≠ (m, .receive) →
      (k'.machine m).inHdr = (k.machine m).inHdr ∧ (k'.machine m).inbox = (k.machine m).inbox) ∧
    ∀ m a, (∀ fresh', k.step (m, .checkPktAvail fresh') ≠ .error (.assertion a)) ∧
      k.step (m, .put) ≠ .error (.assertion a) := by
  obtain ⟨t, h⟩ : ∃ t, k.Flow t := hr.inv (I := fun k => ∃ t, k.Flow t)
    (fun _ _ _ ⟨_, h⟩ hs => h.step hs) ⟨_, init_flow numBoxes inHdr pktHdr fresh⟩
  refine ⟨h.put_prefix, fun s hs m b => ?_, fun m b mail hm => ?_,
    fun m e k' hfull hstep he => buffer_kept hstep hfull he, fun m a => ⟨fun fresh' => ?_, ?_⟩⟩
  · have honly : ((k.machine m).putInto b).filter (fun mail => mail.pktHdr.source = s) =
        (k.machine m).putInto b := by
      refine List.filter_eq_self.mpr fun mail hm => decide_eq_true ?_
      by_contra hne
      have hmem := mem_putInto h hm
      rw [hs _ hne] at hmem
      cases hmem
    rw [← honly]
    exact h.put_prefix s m b
  · have hlegal : mail.Legal k.numBoxes m := by
      rw [(h.carries m).put b] at hm
      refine h.legal m mail ?_
      simp [Transit.all, List.mem_of_mem_filter hm]
    exact ⟨mem_putInto h hm, hlegal.length, hlegal.data⟩
  · obtain ⟨x, _, hx, -⟩ := (h.carries m).checkPktAvail (h.legal m) fresh'
    simp [step, hx, ok_bind]
  · by_cases hw : (k.machine m).worker = .received
    · obtain ⟨x, _, hx, -⟩ := (h.carries m).putMail (h.legal m) hw
      simp [step, hx, ok_bind]
    · simp [step, Machine.put, hw, error_bind]

/-- Machine 1 sends three messages to box 3 of machine 2. The first is lost, the
second has been received, and the third waits in the buffer of the device. -/
theorem mail_faithful_three : ∃ k, Run step (init 10 ⟨0, 0, 0⟩ ⟨0, 0, 0⟩ fun _ => 255)
      [(1, .send ⟨2, 0, 0⟩ ⟨3, 4, 2⟩ (fun _ => 6) (fun _ _ => 255) true), (1, .sendDone),
        (1, .sendReturns),
        (1, .send ⟨2, 0, 0⟩ ⟨3, 4, 2⟩ (fun _ => 7) (fun _ _ => 255) false),
        (1, .send ⟨2, 0, 0⟩ ⟨3, 4, 1⟩ (fun _ => 8) (fun _ _ => 255) false),
        (2, .checkPktAvail fun _ => 0), (2, .wake), (2, .receive), (2, .put), (2, .get 3),
        (2, .checkPktAvail fun _ => 0)] k ∧
    (k.machine 2).putInto 3 = [⟨⟨2, 1, 14⟩, ⟨3, 4, 2⟩, [7, 7]⟩] ∧
    ((k.machine 2).putInto 3).filter (fun mail => mail.pktHdr.source = 1) <+:
      (k.machine 1).sent.filter (fun mail => mail.pktHdr.dest = 2 ∧ mail.mailHdr.dest = 3) ∧
    (k.machine 2).inHdr.length ≠ 0 ∧
    ∀ k', k.step (2, .checkPktAvail fun _ => 0) = .ok k' →
      (k'.machine 2).inHdr = (k.machine 2).inHdr := by
  have hp : continues step (init 10 ⟨0, 0, 0⟩ ⟨0, 0, 0⟩ fun _ => 255)
      [(1, .send ⟨2, 0, 0⟩ ⟨3, 4, 2⟩ (fun _ => 6) (fun _ _ => 255) true), (1, .sendDone),
        (1, .sendReturns),
        (1, .send ⟨2, 0, 0⟩ ⟨3, 4, 2⟩ (fun _ => 7) (fun _ _ => 255) false),
        (1, .send ⟨2, 0, 0⟩ ⟨3, 4, 1⟩ (fun _ => 8) (fun _ _ => 255) false),
        (2, .checkPktAvail fun _ => 0), (2, .wake), (2, .receive), (2, .put), (2, .get 3),
        (2, .checkPktAvail fun _ => 0)]
      (fun k => decide ((k.machine 2).putInto 3 = [⟨⟨2, 1, 14⟩, ⟨3, 4, 2⟩, [7, 7]⟩] ∧
        (k.machine 2).inHdr.length ≠ 0)) = true := by decide +kernel
  obtain ⟨k, hr, hk⟩ := continues_iff.mp hp
  obtain ⟨hput, hfull⟩ := of_decide_eq_true hk
  obtain ⟨hinit, -, -, hkept, -⟩ := mail_faithful 10 _ _ _ hr
  exact ⟨k, hr, hput, hinit 1 2 3, hfull, fun k' hs => (hkept 2 _ k' hfull hs (by simp)).1⟩

end Nachos.Post

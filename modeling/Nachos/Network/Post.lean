import Mathlib.Logic.Function.Basic
import Nachos.Lib.Words
import Nachos.Threads.Utility

/-! The network and the post office (network.cc, post.cc): any number of
machines, each with a socket on which the others' packets arrive, a buffer for
one packet between the interrupt handler and the postal worker, and mail boxes.
A packet on the wire is its bytes: the two headers, the data, and what the
buffer happened to hold behind them. -/

namespace Nachos.Post
open Lib

abbrev NetworkAddress := BitVec 32
abbrev MailBoxAddress := BitVec 32

/-- `PacketHeader` and `MailHeader` have the same fields; `dest` and `source` are
`to` and `from`, words that are not to be had. -/
structure Header where
  dest : BitVec 32
  source : BitVec 32
  length : BitVec 32
  deriving DecidableEq, Repr

abbrev PacketHeader := Header
abbrev MailHeader := Header

abbrev headerSize : Nat := 12
abbrev maxWireSize : Nat := 64
abbrev maxPacketSize : Nat := 52
abbrev maxMailSize : Nat := 40

def Header.bytes (h : Header) : List UInt8 := wordsBytes [h.dest, h.source, h.length]

/-- The header a pointer into a buffer shows. -/
def Header.ofBytes (m : Nat → UInt8) (pos : Nat) : Header :=
  ⟨wordOf m pos, wordOf m (pos + 4), wordOf m (pos + 8)⟩

/-- A new buffer with a header and `n` bytes of data behind it. -/
def Header.concat (h : Header) (fresh data : Nat → UInt8) (n : Nat) : Nat → UInt8 :=
  overlay (overlay fresh 0 h.bytes) headerSize (bytesAt data 0 n)

/-- A message; of `data` only the part that `mailHdr.length` counts is ever set
or read. -/
structure Mail where
  pktHdr : PacketHeader
  mailHdr : MailHeader
  data : List UInt8
  deriving DecidableEq, Repr

/-- Where the postal worker is in its loop: before or in `P`, behind it, or
with a packet in its buffer. -/
inductive Worker
  | waiting
  | awake
  | received
  deriving DecidableEq, Repr

/-- The post office of one machine, and the network device under it. -/
structure Machine where
  socket : List (List UInt8)
  inHdr : PacketHeader
  inbox : Nat → UInt8
  sendBusy : Bool
  messageAvailable : Nat
  messageSent : Nat
  /-- The scheduled interrupts that tell that a packet has been sent. -/
  sendInterrupts : Nat
  /-- The threads in the `P` of `Send`. -/
  senders : Nat
  worker : Worker
  pktHdr : PacketHeader
  buffer : Nat → UInt8
  messages : MailBoxAddress → List Mail
  -- not in the code: the messages sent that were not dropped, and those that
  -- have been taken from each box
  sent : List Mail
  got : MailBoxAddress → List Mail

/-- All machines run one program, with the same number of boxes. -/
structure State where
  numBoxes : Int
  machine : NetworkAddress → Machine

/-- What happens at one machine. `fresh` is what new buffers hold, and `lost`
whether the network drops the packet. -/
inductive Event
  | send (pktHdr : PacketHeader) (mailHdr : MailHeader) (data : Nat → UInt8)
    (fresh : Nat → Nat → UInt8) (lost : Bool)
  | sendDone
  | sendReturns
  | checkPktAvail (fresh : Nat → UInt8)
  | wake
  | receive
  | put
  | get (box : MailBoxAddress)

/-- The sequence of messages put into a box: those that have been taken out of
it, and those that are in it. -/
def Machine.putInto (x : Machine) (b : MailBoxAddress) : List Mail := x.got b ++ x.messages b

/-- `0 <= box && box < numBoxes`. -/
def ValidBox (numBoxes : Int) (b : MailBoxAddress) : Prop := 0 ≤ b.toInt ∧ b.toInt < numBoxes

instance (numBoxes : Int) (b : MailBoxAddress) : Decidable (ValidBox numBoxes b) :=
  inferInstanceAs (Decidable (_ ∧ _))

namespace Machine

/-! ## The receiving side -/

/-- `Network::CheckPktAvail`, with `PostOffice::IncomingPacket` as its handler. -/
def checkPktAvail (x : Machine) (ident : NetworkAddress) (fresh : Nat → UInt8) :
    Except Fault Machine :=
  if x.inHdr.length ≠ 0 then .ok x
  else
    match x.socket with
    | [] => .ok x
    | packet :: rest =>
      let buffer := overlay fresh 0 packet
      let inHdr := Header.ofBytes buffer 0
      if inHdr.dest = ident ∧ inHdr.length.toNat ≤ maxPacketSize then
        .ok { x with
          socket := rest
          inHdr := inHdr
          inbox := overlay x.inbox 0 (bytesAt buffer headerSize inHdr.length.toNat)
          messageAvailable := x.messageAvailable + 1 }
      else .error (.assertion .packetArrived)

/-- `messageAvailable->P()` in `PostOffice::PostalDelivery` returns. -/
def wake (x : Machine) : Except Fault Machine :=
  if x.worker = .waiting ∧ x.messageAvailable ≠ 0 then
    .ok { x with worker := .awake, messageAvailable := x.messageAvailable - 1 }
  else .error .disabled

/-- `Network::Receive`, called by the postal worker. -/
def receive (x : Machine) : Except Fault Machine :=
  if x.worker = .awake then
    .ok { x with
      worker := .received
      pktHdr := x.inHdr
      inHdr := { x.inHdr with length := 0 }
      buffer := if x.inHdr.length ≠ 0 then overlay x.buffer 0
        (bytesAt x.inbox 0 x.inHdr.length.toNat) else x.buffer }
  else .error .disabled

/-- The rest of the loop of `PostalDelivery`, with `MailBox::Put` and the
constructor of `Mail`. -/
def put (x : Machine) (numBoxes : Int) : Except Fault Machine :=
  if x.worker = .received then
    let mailHdr := Header.ofBytes x.buffer 0
    if ValidBox numBoxes mailHdr.dest then
      if mailHdr.length.toNat ≤ maxMailSize then
        let mail : Mail :=
          ⟨x.pktHdr, mailHdr, bytesAt x.buffer headerSize mailHdr.length.toNat⟩
        .ok { x with
          worker := .waiting
          messages := Function.update x.messages mailHdr.dest (x.messages mailHdr.dest ++ [mail]) }
      else .error (.assertion .mailLength)
    else .error (.assertion .mailBox)
  else .error .disabled

/-- `PostOffice::Receive`. An empty box leads to `Condition::Wait`, a dummy that
asserts. -/
def get (x : Machine) (numBoxes : Int) (b : MailBoxAddress) : Except Fault Machine :=
  if ValidBox numBoxes b then
    match x.messages b with
    | [] => .error (.assertion .conditionWait)
    | mail :: rest =>
      if mail.mailHdr.length.toNat ≤ maxMailSize then
        .ok { x with
          messages := Function.update x.messages b rest
          got := Function.update x.got b (x.got b ++ [mail]) }
      else .error (.assertion .mailLength)
  else .error (.assertion .mailBox)

/-! ## The sending side -/

/-- `Network::SendDone`, with `PostOffice::PacketSent` as its handler. -/
def sendDone (x : Machine) : Except Fault Machine :=
  if x.sendInterrupts ≠ 0 then
    .ok { x with
      sendInterrupts := x.sendInterrupts - 1
      sendBusy := false
      messageSent := x.messageSent + 1 }
  else .error .disabled

/-- `messageSent->P()` in `PostOffice::Send` returns, and so does `Send`. -/
def sendReturns (x : Machine) : Except Fault Machine :=
  if x.senders ≠ 0 ∧ x.messageSent ≠ 0 then
    .ok { x with senders := x.senders - 1, messageSent := x.messageSent - 1 }
  else .error .disabled

end Machine

namespace State

def setMachine (k : State) (m : NetworkAddress) (x : Machine) : State :=
  { k with machine := Function.update k.machine m x }

/-- `Network::Send`: the packet goes into the socket of the machine it is for,
unless it is lost. -/
def networkSend (k : State) (ident : NetworkAddress) (hdr : PacketHeader) (data fresh : Nat → UInt8)
    (lost : Bool) : Except Fault State :=
  let x := k.machine ident
  if x.sendBusy = false ∧ 0 < hdr.length.toNat ∧ hdr.length.toNat ≤ maxPacketSize ∧
      hdr.source = ident then
    let k := k.setMachine ident { x with sendInterrupts := x.sendInterrupts + 1 }
    if lost then .ok k
    else
      let buffer := hdr.concat fresh data hdr.length.toNat
      let y := k.machine hdr.dest
      .ok (k.setMachine hdr.dest { y with socket := y.socket ++ [bytesAt buffer 0 maxWireSize] })
  else .error (.assertion .packetSend)

/-- What `Send` makes of the headers and the data it is given. -/
def mailOf (netAddr : NetworkAddress) (pktHdr : PacketHeader) (mailHdr : MailHeader)
    (data : Nat → UInt8) : Mail where
  pktHdr := { pktHdr with source := netAddr, length := mailHdr.length + headerSize }
  mailHdr := mailHdr
  data := bytesAt data 0 mailHdr.length.toNat

/-- The statement's record of what has been sent. -/
def record (k : State) (netAddr : NetworkAddress) (mail : Mail) (lost : Bool) : State :=
  let x := k.machine netAddr
  k.setMachine netAddr { x with
    senders := x.senders + 1
    sent := if lost then x.sent else x.sent ++ [mail] }

/-- `PostOffice::Send`, up to the wait for the interrupt. -/
def send (k : State) (netAddr : NetworkAddress) (pktHdr : PacketHeader) (mailHdr : MailHeader)
    (data : Nat → UInt8) (fresh : Nat → Nat → UInt8) (lost : Bool) : Except Fault State :=
  if mailHdr.length.toNat ≤ maxMailSize then
    if ValidBox k.numBoxes mailHdr.dest then do
      let pktHdr := { pktHdr with source := netAddr, length := mailHdr.length + headerSize }
      let buffer := mailHdr.concat (fresh 0) data mailHdr.length.toNat
      let k ← k.networkSend netAddr pktHdr buffer (fresh 1) lost
      .ok (k.record netAddr (mailOf netAddr pktHdr mailHdr data) lost)
    else .error (.assertion .mailBox)
  else .error (.assertion .mailLength)

/-- An event at a machine. -/
def step (k : State) : NetworkAddress × Event → Except Fault State
  | (m, .send pktHdr mailHdr data fresh lost) => k.send m pktHdr mailHdr data fresh lost
  | (m, .sendDone) => (k.machine m).sendDone >>= fun x => .ok (k.setMachine m x)
  | (m, .sendReturns) => (k.machine m).sendReturns >>= fun x => .ok (k.setMachine m x)
  | (m, .checkPktAvail fresh) =>
    (k.machine m).checkPktAvail m fresh >>= fun x => .ok (k.setMachine m x)
  | (m, .wake) => (k.machine m).wake >>= fun x => .ok (k.setMachine m x)
  | (m, .receive) => (k.machine m).receive >>= fun x => .ok (k.setMachine m x)
  | (m, .put) => (k.machine m).put k.numBoxes >>= fun x => .ok (k.setMachine m x)
  | (m, .get b) => (k.machine m).get k.numBoxes b >>= fun x => .ok (k.setMachine m x)

end State

/-- Every machine with its post office just made; the constructors leave all of
`inHdr` but its length, and the buffers, as they find them. -/
def init (numBoxes : Int) (inHdr pktHdr : PacketHeader) (fresh : Nat → UInt8) : State where
  numBoxes := numBoxes
  machine := fun _ =>
    { socket := []
      inHdr := { inHdr with length := 0 }
      inbox := fresh
      sendBusy := false
      messageAvailable := 0
      messageSent := 0
      sendInterrupts := 0
      senders := 0
      worker := .waiting
      pktHdr := pktHdr
      buffer := fresh
      messages := fun _ => []
      sent := []
      got := fun _ => [] }

end Nachos.Post

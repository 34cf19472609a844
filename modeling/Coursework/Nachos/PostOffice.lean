import Coursework.Nachos.Mail
import Coursework.Nachos.Transmitter

/-!
# The post office

`machine/NetworkLink.java` and `network/PostOffice.java` on all machines of a network. A link
holds one packet for each direction, and reports by interrupts that one has come in or gone
out; the post office turns these into semaphores, sends one message at a time under a lock,
and has a thread that moves incoming messages to the mailbox of their port.

An event is one thread going from one point where it can be interrupted to the next, an
interrupt, or something the network does. The mailboxes are lists: what `SynchList` does
under its lock is one event.
-/

namespace Nachos

namespace PostOffice

/-- History: the link address of the machine a datagram was sent by, or none if it was sent by
    a program that is no Nachos machine of this network. -/
abbrev Origin := Option Int

/-- Where the thread of `postalDelivery` is. -/
inductive Delivery where
  /-- Before `messageReceived.P()`. -/
  | beforeP
  /-- In the `KThread.sleep()` of `messageReceived.P()`. -/
  | waitReceived
  /-- Before `Machine.networkLink().receive()`. -/
  | receiving
  /-- Before `queues[mail.dstPort].add(mail)`. -/
  | delivering (origin : Origin) (mail : MailMessage)
  deriving DecidableEq

/-- What a machine has for messages that come in: fields of its link, the number of its receive
    interrupts that are pending, and fields of its post office. The last four are history:
    the packets the link made of incoming bytes, and whether it did before the post office
    was there; the messages put into mailboxes, and those taken out of each. -/
structure Incoming where
  incomingBytes : Option (Origin × List Byte) := none
  incomingPacket : Option (Origin × Packet) := none
  receiveInterrupts : Nat := 1
  queues : Int → List (Origin × MailMessage) := fun _ => []
  messageReceived : Nat := 0
  delivery : Delivery := .beforeP
  accepted : List (Origin × Packet) := []
  early : Bool := false
  delivered : List (Origin × MailMessage) := []
  received : Int → List (Origin × MailMessage) := fun _ => []

/-- What a machine has for messages that go out: the link with its `outgoingPacket`, and the
    `sendLock` and the semaphore `messageSent` of the post office. -/
abbrev Outgoing (T : Type) := Transmitter T MailMessage Packet

/-- One machine. There is no post office before `handlers` is set. -/
structure Machine (T : Type) where
  incoming : Incoming := {}
  outgoing : Outgoing T := {}
  handlers : Bool := false

/-- How an event can go wrong. -/
inductive Failure where
  | assertion
  | nullPointer
  | indexOutOfBounds
  deriving DecidableEq

namespace Incoming

/-- `NetworkLink.receive()`: the state it leaves. -/
def linkReceive (m : Incoming) : Incoming :=
  match m.incomingPacket with
  | none => m
  | some _ => { m with incomingPacket := none, receiveInterrupts := m.receiveInterrupts + 1 }

/-- `messageReceived.V()`, in `PostOffice.receiveInterrupt`. -/
def receivedV (m : Incoming) : Incoming :=
  if m.delivery = .waitReceived then { m with delivery := .receiving }
  else { m with messageReceived := m.messageReceived + 1 }

/-- The next step of the thread of `postalDelivery`. -/
def deliver (m : Incoming) : Except Failure Incoming :=
  match m.delivery with
  | .beforeP =>
    if m.messageReceived = 0 then .ok { m with delivery := .waitReceived }
    else .ok { m with messageReceived := m.messageReceived - 1, delivery := .receiving }
  | .waitReceived => .ok m
  | .receiving =>
    match m.incomingPacket with
    | none => .error .nullPointer
    | some (origin, packet) =>
      match MailMessage.ofPacket packet with
      -- a malformed message is dropped, and the thread waits for the next one
      | none => .ok { m.linkReceive with delivery := .beforeP }
      | some mail => .ok { m.linkReceive with delivery := .delivering origin mail }
  | .delivering origin mail =>
    if 0 ≤ mail.dstPort ∧ mail.dstPort < MailMessage.portLimit then
      .ok { m with
        queues := Function.update m.queues mail.dstPort (m.queues mail.dstPort ++ [(origin, mail)])
        delivered := m.delivered ++ [(origin, mail)]
        delivery := .beforeP }
    else .error .indexOutOfBounds

/-- `PostOffice.receive(port)`, for a mailbox that is not empty. -/
def receive (m : Incoming) (port : Int) : Except Failure Incoming :=
  if 0 ≤ port ∧ port < MailMessage.portLimit then
    match m.queues port with
    | [] => .ok m
    | mail :: rest =>
      .ok { m with
        queues := Function.update m.queues port rest
        received := Function.update m.received port (m.received port ++ [mail]) }
  else .error .assertion

/-- `NetworkLink.receiveInterrupt()`; `canReceive` is the answer of the autograder. -/
def receiveInterrupt (networkID : Byte) (m : Incoming) (canReceive handlers : Bool) :
    Except Failure Incoming :=
  if m.incomingPacket ≠ none then .error .assertion
  else
    match m.incomingBytes with
    | none => .ok { m with receiveInterrupts := m.receiveInterrupts + 1 }
    | some (origin, bytes) =>
      match if canReceive then Packet.ofBytes networkID bytes else none with
      | none =>
        -- dropped, or no packet of this network
        .ok { m with incomingBytes := none, receiveInterrupts := m.receiveInterrupts + 1 }
      | some packet =>
        let m := { m with
          incomingBytes := none
          incomingPacket := some (origin, packet)
          accepted := m.accepted ++ [(origin, packet)] }
        .ok (if handlers then m.receivedV else { m with early := true })

end Incoming

namespace Outgoing

variable {T : Type} [DecidableEq T]

/-- `Lib.assertTrue`, in a call of the driver. -/
def asserted {α : Type} : Option α → Except Failure α
  | none => .error .assertion
  | some a => .ok a

/-- `PostOffice.send(mail)`, up to `sendLock.acquire()`. -/
def send (m : Outgoing T) (t : T) (mail : MailMessage) : Except Failure (Outgoing T) :=
  asserted (m.call t mail)

/-- The next step of a thread in `PostOffice.send`; it calls `NetworkLink.send(mail.packet)`. -/
def sendStep (m : Outgoing T) (t prefer : T) : Except Failure (Outgoing T) :=
  asserted (m.step MailMessage.packet t prefer)

/-- `NetworkLink.sendInterrupt()`, with the packet it is done with; the handler is
    `PostOffice.sendInterrupt()`. -/
def sendInterrupt (m : Outgoing T) (handlers : Bool) (prefer : T) :
    Except Failure (Packet × Outgoing T) :=
  asserted (m.interrupt handlers prefer)

end Outgoing

/-- The machines by their link addresses, and the datagrams on their way to each link. -/
structure Net (T : Type) where
  machine : Int → Machine T := fun _ => {}
  flight : Int → List (Origin × List Byte) := fun _ => []

/-- What can happen next. -/
inductive Event (T : Type) where
  /-- `new PostOffice()`, on machine `a`. -/
  | boot (a : Int)
  /-- Thread `t` calls `send`. -/
  | send (a : Int) (t : T) (mail : MailMessage)
  | sendStep (a : Int) (t prefer : T)
  | deliver (a : Int)
  | receive (a port : Int)
  | receiveInterrupt (a : Int) (canReceive : Bool)
  /-- `canSend` is false if the packet is to be dropped. -/
  | sendInterrupt (a : Int) (canSend : Bool) (prefer : T)
  /-- `receiveLoop` gets the next datagram. -/
  | arrive (a : Int)
  /-- The network loses a datagram. -/
  | lose (a : Int) (i : Nat)
  /-- Another program sends a datagram. -/
  | inject (a : Int) (bytes : List Byte)

namespace Net

variable {T : Type} [DecidableEq T]

/-- Replace machine `a`. -/
def setMachine (n : Net T) (a : Int) (m : Machine T) : Net T :=
  { n with machine := Function.update n.machine a m }

/-- Replace what is on its way to machine `a`. -/
def setFlight (n : Net T) (a : Int) (flight : List (Origin × List Byte)) : Net T :=
  { n with flight := Function.update n.flight a flight }

/-- Do something with what comes in on machine `a`. -/
def onIncoming (n : Net T) (a : Int) (f : Incoming → Except Failure Incoming) :
    Except Failure (Net T) := do
  let incoming ← f (n.machine a).incoming
  return n.setMachine a { n.machine a with incoming }

/-- Do something with what goes out on machine `a`. -/
def onOutgoing (n : Net T) (a : Int) (f : Outgoing T → Except Failure (Outgoing T)) :
    Except Failure (Net T) := do
  let outgoing ← f (n.machine a).outgoing
  return n.setMachine a { n.machine a with outgoing }

/-- One event, which changes nothing when it cannot happen: before there is a post office, for
    a thread that is already in `send`, and without an interrupt that is pending. -/
def step (networkID : Byte) (n : Net T) : Event T → Except Failure (Net T)
  | .boot a => .ok (n.setMachine a { n.machine a with handlers := true })
  | .send a t mail =>
    if (n.machine a).handlers ∧ (n.machine a).outgoing.gate.stage t = .outside then
      n.onOutgoing a fun m => m.send t mail
    else .ok n
  | .sendStep a t prefer => n.onOutgoing a fun m => m.sendStep t prefer
  | .deliver a =>
    if (n.machine a).handlers then n.onIncoming a Incoming.deliver else .ok n
  | .receive a port => n.onIncoming a fun m => m.receive port
  | .receiveInterrupt a canReceive =>
    if (n.machine a).incoming.receiveInterrupts = 0 then .ok n
    else
      n.onIncoming a fun m =>
        { m with receiveInterrupts := m.receiveInterrupts - 1 }.receiveInterrupt networkID
          canReceive (n.machine a).handlers
  | .sendInterrupt a canSend prefer =>
    let m := n.machine a
    if m.outgoing.sendInterrupts = 0 then .ok n
    else do
      let (packet, outgoing) ←
        Outgoing.sendInterrupt
          { m.outgoing with sendInterrupts := m.outgoing.sendInterrupts - 1 } m.handlers prefer
      let n := n.setMachine a { m with outgoing }
      return if canSend then
        -- the machine itself may be the one it sends to
        n.setFlight packet.dstLink (n.flight packet.dstLink ++ [(some a, packet.packetBytes)])
      else n
  | .arrive a =>
    match (n.machine a).incoming.incomingBytes, n.flight a with
    | none, (origin, bytes) :: rest => do
      -- a datagram that is too long for the buffer is cut off
      let n ← n.onIncoming a fun m =>
        .ok { m with incomingBytes := some (origin, bytes.take Packet.maxPacketLength) }
      return n.setFlight a rest
    | _, _ => .ok n
  | .lose a i => .ok (n.setFlight a ((n.flight a).eraseIdx i))
  | .inject a bytes => .ok (n.setFlight a (n.flight a ++ [(none, bytes)]))

/-- A run of the network. -/
def run (networkID : Byte) (n : Net T) (events : List (Event T)) : Except Failure (Net T) :=
  events.foldlM (step networkID) n

end Net

end PostOffice

end Nachos

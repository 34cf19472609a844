import Coursework.Nachos.PostOffice
import Coursework.Nachos.Spec.MailFormat
import Coursework.Nachos.Spec.Transmitter

/-!
# The post office and its link agree

What each machine of a network keeps, whatever its threads, its interrupts and the network do:
the link has a receive interrupt pending while it holds no packet and a send interrupt while
it is sending one, the semaphores count what the link reports, and the lock hands the link to
one message at a time. No assertion of the link or the post office fails, and no message is
lost or moved out of order inside a machine.
-/

namespace Nachos

namespace PostOffice

variable {T : Type}

/-! ## Messages -/

/-- A message that one of the constructors has made. -/
def Made (networkID : Byte) (mail : MailMessage) : Prop :=
  (∃ dstLink dstPort srcLink srcPort contents,
    MailMessage.new networkID dstLink dstPort srcLink srcPort contents = some mail) ∨
  ∃ bytes, bytes.length ≤ Packet.maxPacketLength ∧ MailMessage.ofBytes networkID bytes = some mail

/-- The bytes of a packet that is made of bytes. -/
theorem packetBytes_ofBytes {networkID : Byte} {bytes : List Byte} {p : Packet}
    (h : Packet.ofBytes networkID bytes = some p) : p.packetBytes = bytes := by
  simp only [Packet.ofBytes] at h
  split at h
  · split at h
    · cases h
    · rw [← Option.some.inj h]
  · cases h

/-- The bytes of a message give the message, and can be received. -/
theorem Made.ofBytes {networkID : Byte} {mail : MailMessage} (h : Made networkID mail) :
    MailMessage.ofBytes networkID mail.packet.packetBytes = some mail ∧
      mail.packet.packetBytes.length ≤ Packet.maxPacketLength := by
  rcases h with ⟨dstLink, dstPort, srcLink, srcPort, contents, h⟩ | ⟨bytes, hlength, h⟩
  · obtain ⟨hdst, hsrc, hcontents, p, hp, rfl⟩ := MailMessage.new_eq_some.mp h
    have hof := Packet.ofBytes_new hp []
    obtain ⟨-, -, -, hp'⟩ := Packet.new_eq_some.mp hp
    rw [List.append_nil] at hof
    constructor
    · rw [MailMessage.ofBytes, hof]
      refine MailMessage.ofPacket_eq_some.mpr ⟨hdst, hsrc, ?_, rfl⟩
      rw [hp']
    · have hmax : Packet.maxPacketLength = 32 := rfl
      simp only [hp', List.length_cons]
      omega
  · obtain ⟨p, hp, hm⟩ := Option.bind_eq_some_iff.mp h
    have hpacket := (MailMessage.ofPacket_eq_some.mp hm).2.2.2
    rw [hpacket, packetBytes_ofBytes hp]
    exact ⟨h, hlength⟩

/-! ## The receiving side -/

/-- The receive interrupt is pending while no packet is there, and a packet that is there has
    been reported to the thread of `postalDelivery`, unless there was no post office yet. -/
structure Receives (m : Incoming) : Prop where
  interrupts : m.receiveInterrupts = if m.incomingPacket = none then 1 else 0
  tokens : m.messageReceived + (if m.delivery = .receiving then 1 else 0) +
    (if m.early then 1 else 0) = if m.incomingPacket = none then 0 else 1
  waits : m.delivery = .waitReceived → m.messageReceived = 0
  port : ∀ origin mail, m.delivery = .delivering origin mail →
    0 ≤ mail.dstPort ∧ mail.dstPort < MailMessage.portLimit

namespace Receives

variable {m : Incoming}

/-- The thread of `postalDelivery` finds a packet. -/
theorem packet (h : Receives m) (hdelivery : m.delivery = .receiving) :
    (∃ x, m.incomingPacket = some x) ∧ m.messageReceived = 0 ∧ m.early = false := by
  have htokens := h.tokens
  rw [if_pos hdelivery] at htokens
  cases hpacket : m.incomingPacket with
  | none => simp [hpacket] at htokens
  | some x =>
    simp only [hpacket, reduceCtorEq, if_false] at htokens
    refine ⟨⟨x, rfl⟩, by omega, ?_⟩
    cases hearly : m.early with
    | false => rfl
    | true => simp [hearly] at htokens

/-- Nothing has been reported while no packet is there. -/
theorem no_packet (h : Receives m) (hnone : m.incomingPacket = none) :
    m.messageReceived = 0 ∧ m.delivery ≠ .receiving ∧ m.early = false := by
  have htokens := h.tokens
  rw [hnone, if_pos rfl] at htokens
  simpa [and_assoc] using htokens

/-- A packet comes in and is reported. -/
theorem receivedV (h : Receives m) (hnone : m.incomingPacket = none)
    (bytes : Option (Origin × List Byte)) (x : Origin × Packet) (accepted : List (Origin × Packet)) :
    Receives (Incoming.receivedV { m with
      incomingBytes := bytes, incomingPacket := some x, receiveInterrupts := 0, accepted }) := by
  obtain ⟨hzero, hreceiving, hearly⟩ := h.no_packet hnone
  simp only [Incoming.receivedV]
  split
  · exact ⟨by simp, by simp [hzero, hearly], (fun hd => nomatch hd), by simp⟩
  · rename_i hwait
    exact ⟨by simp, by simp [hzero, hreceiving, hearly], fun hd => absurd hd hwait, h.port⟩

/-- The receive interrupt is only pending while no packet is there. -/
theorem receiveInterrupt (h : Receives m) (hpending : m.receiveInterrupts ≠ 0) (networkID : Byte)
    (canReceive handlers : Bool) :
    ∃ m', Incoming.receiveInterrupt networkID
        { m with receiveInterrupts := m.receiveInterrupts - 1 } canReceive handlers = .ok m' ∧
      Receives m' := by
  have hnone : m.incomingPacket = none := by
    by_contra hne
    exact hpending (h.interrupts.trans (if_neg hne))
  obtain ⟨hzero, hreceiving, hearly⟩ := h.no_packet hnone
  have hone := h.interrupts
  rw [hnone, if_pos rfl] at hone
  have hagain (bytes : Option (Origin × List Byte)) :
      Receives { m with incomingBytes := bytes, incomingPacket := none, receiveInterrupts := 1 } :=
    ⟨by simp, by simp [hzero, hreceiving, hearly], h.waits, h.port⟩
  simp only [Incoming.receiveInterrupt, hnone, hone, ne_eq, not_true, if_false]
  -- without a packet the interrupt is scheduled again
  cases hbytes : m.incomingBytes with
  | none => exact ⟨_, rfl, hagain none⟩
  | some x =>
    cases hpacket : (if canReceive then Packet.ofBytes networkID x.2 else none) with
    | none => exact ⟨_, by simp only [hpacket], hagain none⟩
    | some packet =>
      refine ⟨_, by simp only [hpacket]; rfl, ?_⟩
      split
      · exact h.receivedV hnone none _ _
      · -- there is no post office yet, and `early` stands for the `V` that was missed
        exact ⟨by simp, by simp [hzero, hreceiving], h.waits, h.port⟩

/-- The thread of `postalDelivery` goes on. -/
theorem deliver (h : Receives m) : ∃ m', m.deliver = .ok m' ∧ Receives m' := by
  have htokens := h.tokens
  simp only [Incoming.deliver]
  cases hdelivery : m.delivery with
  | beforeP =>
    simp only [hdelivery, reduceCtorEq, if_false] at htokens
    by_cases hzero : m.messageReceived = 0
    · refine ⟨_, if_pos hzero, h.interrupts, ?_, fun _ => hzero, by simp⟩
      simpa using htokens
    · refine ⟨_, if_neg hzero, h.interrupts, ?_, by simp, by simp⟩
      simp only [if_true]
      omega
  | waitReceived => exact ⟨m, rfl, h⟩
  | receiving =>
    -- the `V` that woke the thread up was for the packet that the link holds
    obtain ⟨⟨⟨origin, packet⟩, hpacket⟩, hzero, hearly⟩ := h.packet hdelivery
    have hone := h.interrupts
    simp only [hpacket, reduceCtorEq, if_false] at hone
    simp only [hpacket, Incoming.linkReceive, hone]
    cases hmail : MailMessage.ofPacket packet with
    | none => exact ⟨_, rfl, by simp, by simp [hzero, hearly], (fun hd => nomatch hd), by simp⟩
    | some mail =>
      refine ⟨_, rfl, by simp, by simp [hzero, hearly], (fun hd => nomatch hd), ?_⟩
      rintro _ _ hd
      cases hd
      exact (MailMessage.ofPacket_eq_some.mp hmail).1
  | delivering origin mail =>
    simp only [if_pos (h.port origin mail hdelivery)]
    refine ⟨_, rfl, h.interrupts, ?_, by simp, by simp⟩
    simpa [hdelivery] using htokens

/-- A thread takes a message out of its mailbox. -/
theorem receive (h : Receives m) {port : Int} (hport : 0 ≤ port ∧ port < MailMessage.portLimit) :
    ∃ m', m.receive port = .ok m' ∧ Receives m' := by
  simp only [Incoming.receive, if_pos hport]
  cases m.queues port with
  | nil => exact ⟨m, rfl, h⟩
  | cons mail rest => exact ⟨_, rfl, h.interrupts, h.tokens, h.waits, h.port⟩

end Receives

/-! ## The sending side -/

/-- The link and the post office of a machine agree about what is being sent, and the messages
    are ones that a constructor has made. -/
abbrev Sends (networkID : Byte) (m : Outgoing T) : Prop :=
  Transmitter.Sends MailMessage.packet (Made networkID) m

namespace Sends

variable [DecidableEq T] {networkID : Byte} {m : Outgoing T}

theorem send (h : Sends networkID m) {t : T} (ht : m.gate.stage t = .outside) {mail : MailMessage}
    (hmail : Made networkID mail) : ∃ m', Outgoing.send m t mail = .ok m' ∧ Sends networkID m' := by
  obtain ⟨m', hm', hsends⟩ := h.call ht hmail
  exact ⟨m', by rw [Outgoing.send, hm']; rfl, hsends⟩

theorem sendStep (h : Sends networkID m) (t prefer : T) :
    ∃ m', Outgoing.sendStep m t prefer = .ok m' ∧ Sends networkID m' := by
  obtain ⟨m', hm', hsends⟩ := h.step t prefer
  exact ⟨m', by rw [Outgoing.sendStep, hm']; rfl, hsends⟩

theorem sendInterrupt (h : Sends networkID m) (hpending : m.sendInterrupts ≠ 0) (prefer : T) :
    ∃ packet m', Outgoing.sendInterrupt { m with sendInterrupts := m.sendInterrupts - 1 } true
      prefer = .ok (packet, m') ∧ Sends networkID m' := by
  obtain ⟨packet, m', -, hm', hsends⟩ := h.interrupt hpending prefer
  exact ⟨packet, m', by rw [Outgoing.sendInterrupt, hm']; rfl, hsends⟩

end Sends

/-! ## All machines -/

/-- A machine in order: there are no calls of `send` before there is a post office. -/
structure Ok (networkID : Byte) (m : Machine T) : Prop where
  incoming : Receives m.incoming
  outgoing : Sends networkID m.outgoing
  boot : m.handlers = false → ∀ t, m.outgoing.gate.stage t = .outside

/-- What the callers of the post office promise: a message that one of its constructors has
    made, and a port that exists. -/
def Event.Valid (networkID : Byte) : Event T → Prop
  | .send _ _ mail => Made networkID mail
  | .receive _ port => 0 ≤ port ∧ port < MailMessage.portLimit
  | _ => True

section

variable {networkID : Byte} {n n' : Net T} {a : Int}

theorem Net.setMachine_ok (h : ∀ a, Ok networkID (n.machine a)) {m : Machine T} (hm : Ok networkID m)
    (b : Int) : Ok networkID ((n.setMachine a m).machine b) := by
  by_cases hb : b = a
  · subst hb
    simpa [Net.setMachine] using hm
  · simpa [Net.setMachine, hb] using h b

theorem Net.onIncoming_ok {f : Incoming → Except Failure Incoming} {m : Incoming}
    (h : f (n.machine a).incoming = .ok m) :
    n.onIncoming a f = .ok (n.setMachine a { n.machine a with incoming := m }) := by
  rw [Net.onIncoming, h]
  rfl

theorem Net.onOutgoing_ok {f : Outgoing T → Except Failure (Outgoing T)} {m : Outgoing T}
    (h : f (n.machine a).outgoing = .ok m) :
    n.onOutgoing a f = .ok (n.setMachine a { n.machine a with outgoing := m }) := by
  rw [Net.onOutgoing, h]
  rfl

/-- Something happens to what comes in on one machine. -/
theorem incoming_ok (h : ∀ a, Ok networkID (n.machine a)) {f : Incoming → Except Failure Incoming}
    (hf : ∃ m', f (n.machine a).incoming = .ok m' ∧ Receives m') :
    ∃ n', n.onIncoming a f = .ok n' ∧ ∀ a, Ok networkID (n'.machine a) := by
  obtain ⟨m', hm', hreceives⟩ := hf
  exact ⟨_, Net.onIncoming_ok hm',
    Net.setMachine_ok h ⟨hreceives, (h a).outgoing, (h a).boot⟩⟩

/-- A machine that sends has a post office. -/
theorem Ok.handlers [DecidableEq T] {m : Machine T} (h : Ok networkID m)
    (hpending : m.outgoing.sendInterrupts ≠ 0) : m.handlers = true := by
  by_contra hno
  -- before there is a post office no thread sends, so that the lock is free
  have hoff := h.boot (by simpa using hno)
  have hfree : m.outgoing.gate.holder = none := by
    cases hlock : m.outgoing.gate.holder with
    | none => rfl
    | some t =>
      have := (h.outgoing.queued.lock t).mp hlock
      simp [hoff t, Gate.Stage.hasLock] at this
  obtain ⟨-, hnone⟩ := h.outgoing.idle (by rw [Gate.current_of_free hfree]; rfl)
  rw [h.outgoing.interrupts, hnone] at hpending
  exact hpending rfl

/-- What a thread may rely on: only one thread is past the lock, and no thread waits for
    something that is not going to happen. The exception is a message that came in before there
    was a post office (`early`): nobody has increased the semaphore for it, it stays in the link,
    and the thread of `postalDelivery` sleeps beside it. -/
structure InOrder (m : Machine T) : Prop where
  exclusive : ∀ t u, (m.outgoing.gate.stage t).hasLock = true →
    (m.outgoing.gate.stage u).hasLock = true → t = u
  waitLock : ∀ t mail, m.outgoing.gate.stage t = .waitLock mail →
    ∃ u, m.outgoing.gate.holder = some u ∧ (m.outgoing.gate.stage u).hasLock = true
  waitSent : ∀ t, m.outgoing.gate.stage t = .waitP → m.outgoing.sendInterrupts = 1
  waitReceived : m.incoming.delivery = .waitReceived → m.incoming.early = false →
    m.incoming.incomingPacket = none ∧ m.incoming.receiveInterrupts = 1
  missed : m.incoming.early = true →
    m.incoming.incomingPacket ≠ none ∧ m.incoming.messageReceived = 0

theorem Ok.inOrder {m : Machine T} (h : Ok networkID m) : InOrder m := by
  have htokens := h.incoming.tokens
  refine ⟨fun t u => h.outgoing.queued.exclusive, fun t mail => h.outgoing.queued.held,
    fun t => h.outgoing.waitP, fun hd hearly => ?_, fun hearly => ?_⟩
  · have hinterrupts := h.incoming.interrupts
    have hzero := h.incoming.waits hd
    cases hpacket : m.incoming.incomingPacket with
    | none => exact ⟨rfl, by simpa [hpacket] using hinterrupts⟩
    | some x => simp [hd, hearly, hzero, hpacket] at htokens
  · have hpacket : m.incoming.incomingPacket ≠ none := fun hnone => by
      simpa [hearly] using (h.incoming.no_packet hnone).2.2
    rw [if_pos hearly, if_neg hpacket] at htokens
    exact ⟨hpacket, by omega⟩

/-- No event goes wrong, and all machines stay in order. -/
theorem step_ok [DecidableEq T] (h : ∀ a, Ok networkID (n.machine a)) {event : Event T}
    (hvalid : event.Valid networkID) :
    ∃ n', n.step networkID event = .ok n' ∧ ∀ a, Ok networkID (n'.machine a) := by
  cases event with
  | boot a =>
    exact ⟨_, rfl, Net.setMachine_ok h ⟨(h a).incoming, (h a).outgoing, fun hno => nomatch hno⟩⟩
  | send a t mail =>
    by_cases hcan : (n.machine a).handlers ∧ (n.machine a).outgoing.gate.stage t = .outside
    · obtain ⟨m', hm', hsends⟩ := Sends.send (h a).outgoing hcan.2 hvalid
      refine ⟨_, (if_pos hcan).trans (Net.onOutgoing_ok hm'), Net.setMachine_ok h
        ⟨(h a).incoming, hsends, fun hno => ?_⟩⟩
      exact nomatch hcan.1.symm.trans hno
    · exact ⟨n, if_neg hcan, h⟩
  | sendStep a t prefer =>
    obtain ⟨m', hm', hsends⟩ := Sends.sendStep (h a).outgoing t prefer
    refine ⟨_, Net.onOutgoing_ok (a := a) (f := fun m => m.sendStep t prefer) hm',
      Net.setMachine_ok h ⟨(h a).incoming, hsends, fun hno => ?_⟩⟩
    -- without a post office the thread is in no call, and nothing happens
    have hout := (h a).boot hno
    rw [Outgoing.sendStep, Transmitter.step, hout t] at hm'
    exact Except.ok.inj hm' ▸ hout
  | deliver a =>
    by_cases hcan : (n.machine a).handlers = true
    · obtain ⟨n', hn', hok⟩ := incoming_ok h (a := a) (f := Incoming.deliver) (h a).incoming.deliver
      exact ⟨n', (if_pos hcan).trans hn', hok⟩
    · exact ⟨n, if_neg hcan, h⟩
  | receive a port =>
    exact incoming_ok h (a := a) (f := fun m => m.receive port) ((h a).incoming.receive hvalid)
  | receiveInterrupt a canReceive =>
    by_cases hpending : (n.machine a).incoming.receiveInterrupts = 0
    · exact ⟨n, if_pos hpending, h⟩
    · obtain ⟨n', hn', hok⟩ := incoming_ok h (a := a)
        (f := fun m => Incoming.receiveInterrupt networkID
          { m with receiveInterrupts := m.receiveInterrupts - 1 } canReceive
          (n.machine a).handlers)
        ((h a).incoming.receiveInterrupt hpending networkID canReceive (n.machine a).handlers)
      exact ⟨n', (if_neg hpending).trans hn', hok⟩
  | sendInterrupt a canSend prefer =>
    by_cases hpending : (n.machine a).outgoing.sendInterrupts = 0
    · exact ⟨n, if_pos hpending, h⟩
    · -- the machine is sending, so that it has a post office for the interrupt
      have hhandlers := (h a).handlers hpending
      obtain ⟨packet, m', hm', hsends⟩ := Sends.sendInterrupt (h a).outgoing hpending prefer
      have hok : Ok networkID { n.machine a with outgoing := m' } :=
        ⟨(h a).incoming, hsends, fun hno => nomatch hhandlers.symm.trans hno⟩
      rw [← hhandlers] at hm'
      simp only [Net.step, if_neg hpending, hm']
      refine ⟨_, rfl, fun b => ?_⟩
      dsimp only
      split
      · exact Net.setMachine_ok h hok b
      · exact Net.setMachine_ok h hok b
  | arrive a =>
    simp only [Net.step]
    split
    · obtain ⟨n', hn', hok⟩ := incoming_ok h (a := a) (f := fun m => .ok { m with
        incomingBytes := some (_, List.take Packet.maxPacketLength _) })
        ⟨_, rfl, (h a).incoming.1, (h a).incoming.2, (h a).incoming.3, (h a).incoming.4⟩
      rw [hn']
      exact ⟨_, rfl, hok⟩
    · exact ⟨n, rfl, h⟩
  | lose a i => exact ⟨_, rfl, h⟩
  | inject a bytes => exact ⟨_, rfl, h⟩

end

/-! ## Runs -/

/-- The machines when they are turned on. -/
theorem start_ok {networkID : Byte} (a : Int) : Ok networkID (({} : Net T).machine a) :=
  ⟨⟨rfl, rfl, (fun hd => nomatch hd), by simp⟩, Transmitter.Sends.start, fun _ _ => rfl⟩

/-- What the machines keep, a run keeps. -/
theorem run_ok [DecidableEq T] {networkID : Byte} {events : List (Event T)}
    (hvalid : ∀ event ∈ events, event.Valid networkID) : ∀ {n : Net T},
    (∀ a, Ok networkID (n.machine a)) → ∃ n', n.run networkID events = .ok n' ∧ ∀ a, Ok networkID (n'.machine a) := by
  induction events with
  | nil => exact fun h => ⟨_, rfl, h⟩
  | cons event events ih =>
    intro n h
    obtain ⟨n₁, hstep, h₁⟩ := step_ok h (hvalid event List.mem_cons_self)
    obtain ⟨n', hrun, h'⟩ := ih (fun e he => hvalid e (List.mem_cons_of_mem _ he)) h₁
    refine ⟨n', ?_, h'⟩
    rw [Net.run, List.foldlM_cons, hstep]
    exact hrun

/-- Whatever the threads and the network do, no assertion fails and nothing else goes wrong. -/
theorem run_not_fails [DecidableEq T] {networkID : Byte} {events : List (Event T)}
    (hvalid : ∀ event ∈ events, event.Valid networkID) :
    ∃ n', ({} : Net T).run networkID events = .ok n' ∧ ∀ a, InOrder (n'.machine a) := by
  obtain ⟨n', hrun, hok⟩ := run_ok hvalid start_ok
  exact ⟨n', hrun, fun a => (hok a).inOrder⟩

/-- Machine 0 sends a message to machine 1, which has no post office. -/
theorem run_not_fails_sent :
    ∃ n', ({} : Net Bool).run 7 [.boot 0, .send 0 true ⟨⟨[7, 1, 0, 3, 3, 2, 9], 1, 0, [3, 2, 9]⟩,
        3, 2, [9]⟩, .sendStep 0 true true, .sendStep 0 true true, .sendInterrupt 0 true true,
        .arrive 1, .receiveInterrupt 1 true] = .ok n' ∧ ∀ a, InOrder (n'.machine a) := by
  refine run_not_fails fun event he => ?_
  simp only [List.mem_cons, List.not_mem_nil, or_false] at he
  rcases he with rfl | rfl | rfl | rfl | rfl | rfl | rfl
  · trivial
  · exact .inl ⟨1, 3, 0, 2, [9], by decide⟩
  all_goals trivial

/-- When machine 1 gets its post office only then, the thread of `postalDelivery` sleeps beside
    the message. -/
example : (({} : Net Bool).run 7 [.boot 0, .send 0 true ⟨⟨[7, 1, 0, 3, 3, 2, 9], 1, 0, [3, 2, 9]⟩,
        3, 2, [9]⟩, .sendStep 0 true true, .sendStep 0 true true, .sendInterrupt 0 true true,
        .arrive 1, .receiveInterrupt 1 true, .boot 1, .deliver 1]).toOption.map
      (fun n => ((n.machine 1).incoming.early, (n.machine 1).incoming.delivery,
        (n.machine 1).incoming.messageReceived)) = some (true, .waitReceived, 0) := by
  decide +kernel

end PostOffice

end Nachos

import Coursework.ForStd.Except
import Coursework.Nachos.Spec.PostOffice

/-!
# What is in the mailboxes

Inside a machine no message is lost, doubled or moved out of order: what has come in is in the
mailboxes or on its way there, and what has been sent has been given to the network. The
network loses datagrams but keeps their order, so that a mailbox holds the messages a machine
has sent to it, with some left out.
-/

namespace Nachos

namespace PostOffice

variable {T : Type}

/-! ## What has come in -/

/-- The message in a packet. -/
def mailOf (x : Origin × Packet) : Option (Origin × MailMessage) :=
  (MailMessage.ofPacket x.2).map fun mail => (x.1, mail)

/-- The message that the thread of `postalDelivery` has taken. -/
def Delivery.inHand : Delivery → List (Origin × MailMessage)
  | .delivering origin mail => [(origin, mail)]
  | _ => []

/-- What `NetworkLink.receiveInterrupt` does: what came in is no packet or dropped, if there is
    anything at all, or the link keeps the packet and tells the post office. -/
theorem Incoming.receiveInterrupt_cases {m m' : Incoming} {networkID : Byte}
    {canReceive handlers : Bool}
    (hstep : m.receiveInterrupt networkID canReceive handlers = .ok m') :
    m.incomingPacket = none ∧
      (m' = { m with incomingBytes := none, receiveInterrupts := m.receiveInterrupts + 1 } ∨
      ∃ origin bytes packet kept, m.incomingBytes = some (origin, bytes) ∧
        Packet.ofBytes networkID bytes = some packet ∧
        kept = { m with
          incomingBytes := none, incomingPacket := some (origin, packet)
          accepted := m.accepted ++ [(origin, packet)] } ∧
        m' = if handlers then kept.receivedV else { kept with early := true }) := by
  simp only [Incoming.receiveInterrupt] at hstep
  split at hstep
  · cases hstep
  · rename_i hnone
    refine ⟨by simpa using hnone, ?_⟩
    split at hstep
    · rename_i hbytes
      obtain rfl := Except.ok.inj hstep
      exact .inl (by rw [← hbytes])
    · rename_i origin bytes hbytes
      split at hstep
      · exact .inl (Except.ok.inj hstep).symm
      · rename_i packet hpacket
        -- the autograder has let the packet through
        have hof : Packet.ofBytes networkID bytes = some packet := by
          cases canReceive with
          | false => cases hpacket
          | true => exact hpacket
        exact .inr ⟨origin, bytes, packet, _, hbytes, hof, rfl, (Except.ok.inj hstep).symm⟩

/-- Every message that came in is in a mailbox, has been taken out of it, or is on its way. -/
structure KeepsMail (networkID : Byte) (m : Incoming) : Prop where
  accepted : ∀ x ∈ m.accepted, Packet.ofBytes networkID x.2.packetBytes = some x.2
  delivered : m.accepted.filterMap mailOf =
    m.delivered ++ m.delivery.inHand ++ m.incomingPacket.toList.filterMap mailOf
  mailbox : ∀ port, m.received port ++ m.queues port =
    m.delivered.filter fun x => x.2.dstPort = port

namespace KeepsMail

variable {networkID : Byte} {m m' : Incoming}

/-- The thread of `postalDelivery` goes on. -/
theorem deliver (h : KeepsMail networkID m) (hstep : m.deliver = .ok m') :
    KeepsMail networkID m' := by
  have hdelivered := h.delivered
  simp only [Incoming.deliver] at hstep
  split at hstep
  · rename_i hdelivery
    split at hstep
    all_goals
      obtain rfl := Except.ok.inj hstep
      refine ⟨h.accepted, ?_, h.mailbox⟩
      simpa [hdelivery, Delivery.inHand] using hdelivered
  · obtain rfl := Except.ok.inj hstep
    exact h
  · rename_i hdelivery
    split at hstep
    · cases hstep
    · rename_i origin packet hpacket
      simp only [Incoming.linkReceive, hpacket] at hstep
      cases hmail : MailMessage.ofPacket packet with
      | none =>
        -- a malformed message: `mailOf` leaves it out of both sides
        simp only [hmail, Except.ok.injEq] at hstep
        subst hstep
        refine ⟨h.accepted, ?_, h.mailbox⟩
        simpa [hdelivery, Delivery.inHand, hpacket, mailOf, hmail] using hdelivered
      | some mail =>
        simp only [hmail, Except.ok.injEq] at hstep
        subst hstep
        refine ⟨h.accepted, ?_, h.mailbox⟩
        simpa [hdelivery, Delivery.inHand, hpacket, mailOf, hmail] using hdelivered
  · rename_i origin mail hdelivery
    split at hstep
    · obtain rfl := Except.ok.inj hstep
      -- the message goes from the thread's hands to the end of one mailbox
      refine ⟨h.accepted, ?_, fun port => ?_⟩
      · simpa [hdelivery, Delivery.inHand] using hdelivered
      · by_cases hport : mail.dstPort = port
        · subst hport
          simp [← h.mailbox]
        · simp [hport, Ne.symm hport, h.mailbox]
    · cases hstep

/-- A thread takes a message out of its mailbox. -/
theorem receive {port : Int} (h : KeepsMail networkID m) (hstep : m.receive port = .ok m') :
    KeepsMail networkID m' := by
  simp only [Incoming.receive] at hstep
  split at hstep
  · split at hstep
    · obtain rfl := Except.ok.inj hstep
      exact h
    · rename_i mail rest hqueue
      obtain rfl := Except.ok.inj hstep
      -- of the mailbox, only the border between the two parts moves
      refine ⟨h.accepted, h.delivered, fun p => ?_⟩
      by_cases hp : p = port
      · subst hp
        have hmailbox := h.mailbox p
        rw [hqueue] at hmailbox
        simpa using hmailbox
      · simpa [hp] using h.mailbox p
  · cases hstep

/-- `PostOffice.receiveInterrupt` moves no message. -/
theorem receivedV (h : KeepsMail networkID m) : KeepsMail networkID m.receivedV := by
  simp only [Incoming.receivedV]
  split
  · rename_i hwait
    refine ⟨h.accepted, ?_, h.mailbox⟩
    simpa [hwait, Delivery.inHand] using h.delivered
  · exact ⟨h.accepted, h.delivered, h.mailbox⟩

/-- A packet comes in, or what came in is no packet. -/
theorem receiveInterrupt {canReceive handlers : Bool} (h : KeepsMail networkID m)
    (hstep : m.receiveInterrupt networkID canReceive handlers = .ok m') :
    KeepsMail networkID m' := by
  obtain ⟨hnone, rfl | ⟨origin, bytes, packet, kept, -, hof, rfl, rfl⟩⟩ :=
    Incoming.receiveInterrupt_cases hstep
  · exact ⟨h.accepted, h.delivered, h.mailbox⟩
  · have hkept : KeepsMail networkID { m with
        incomingBytes := none, incomingPacket := some (origin, packet)
        accepted := m.accepted ++ [(origin, packet)] } := by
      refine ⟨fun x hx => ?_, ?_, h.mailbox⟩
      · rcases List.mem_append.mp hx with hx | hx
        · exact h.accepted x hx
        · rw [List.mem_singleton.mp hx]
          rwa [packetBytes_ofBytes hof]
      · have hdelivered := h.delivered
        rw [hnone] at hdelivered
        simpa [List.filterMap_append] using
          congrArg (· ++ [(origin, packet)].filterMap mailOf) hdelivered
    cases handlers with
    | false => exact ⟨hkept.accepted, hkept.delivered, hkept.mailbox⟩
    | true => exact hkept.receivedV

end KeepsMail

/-! ## What the machines do to the history -/

/-- What a link has got from the network and not thrown away. -/
def Incoming.entered (m : Incoming) : List (Origin × List Byte) :=
  m.accepted.map (fun x => (x.1, x.2.packetBytes)) ++ m.incomingBytes.toList

theorem Incoming.deliver_entered {m m' : Incoming} (hstep : m.deliver = .ok m') :
    m'.entered = m.entered := by
  simp only [Incoming.deliver, Incoming.linkReceive] at hstep
  repeat' split at hstep
  all_goals cases hstep <;> rfl

theorem Incoming.receive_entered {m m' : Incoming} {port : Int} (hstep : m.receive port = .ok m') :
    m'.entered = m.entered := by
  simp only [Incoming.receive] at hstep
  repeat' split at hstep
  all_goals cases hstep <;> rfl

theorem Incoming.receivedV_entered (m : Incoming) : m.receivedV.entered = m.entered := by
  simp only [Incoming.receivedV]
  split <;> rfl

theorem Incoming.receiveInterrupt_entered {m m' : Incoming} {networkID : Byte}
    {canReceive handlers : Bool}
    (hstep : m.receiveInterrupt networkID canReceive handlers = .ok m') :
    m'.entered.Sublist m.entered := by
  obtain ⟨-, rfl | ⟨origin, bytes, packet, kept, hbytes, hof, hkept, rfl⟩⟩ :=
    receiveInterrupt_cases hstep
  · simp [entered]
  · -- the bytes of the packet are those that came in
    have hsame : kept.entered = m.entered := by
      simp [entered, hkept, hbytes, packetBytes_ofBytes hof]
    rw [← hsame]
    cases handlers with
    | false => exact List.Sublist.refl _
    | true => exact receivedV_entered kept ▸ List.Sublist.refl _

theorem Outgoing.asserted_eq_ok {α : Type} {x : Option α} {y : α}
    (h : Outgoing.asserted x = .ok y) : x = some y := by
  cases x with
  | none => cases h
  | some z => rw [Except.ok.inj h]

/-! ## The network -/

/-- What came from machine `a`. -/
def ofOrigin {α : Type} (a : Int) (l : List (Origin × α)) : List α :=
  l.filterMap fun x => if x.1 = some a then some x.2 else none

section ofOrigin

variable {α β : Type} {a : Int} {l l' : List (Origin × α)}

@[simp] theorem ofOrigin_append : ofOrigin a (l ++ l') = ofOrigin a l ++ ofOrigin a l' :=
  List.filterMap_append

theorem ofOrigin_sublist (h : l.Sublist l') : (ofOrigin a l).Sublist (ofOrigin a l') :=
  h.filterMap _

theorem mem_ofOrigin {x : α} : x ∈ ofOrigin a l ↔ (some a, x) ∈ l := by
  simp [ofOrigin]

/-- Taking things apart does not change where they came from. -/
theorem ofOrigin_filterMap (f : α → Option β) :
    ofOrigin a (l.filterMap fun x => (f x.2).map fun y => (x.1, y)) =
      (ofOrigin a l).filterMap f := by
  rw [ofOrigin, ofOrigin, List.filterMap_filterMap, List.filterMap_filterMap]
  congr 1
  funext x
  by_cases hx : x.1 = some a <;> cases hf : f x.2 <;> simp [hx, hf]

theorem ofOrigin_map (f : α → β) :
    ofOrigin a (l.map fun x => (x.1, f x.2)) = (ofOrigin a l).map f := by
  rw [ofOrigin, ofOrigin, List.filterMap_map, List.map_filterMap]
  congr 1
  funext x
  by_cases hx : x.1 = some a <;> simp [hx]

theorem ofOrigin_filter (p : α → Bool) :
    ofOrigin a (l.filter fun x => p x.2) = (ofOrigin a l).filter p := by
  rw [ofOrigin, ofOrigin, List.filterMap_filter, List.filter_filterMap]
  congr 1
  funext x
  by_cases hx : x.1 = some a <;> by_cases hp : p x.2 = true <;> simp [hx, hp, Option.filter]

end ofOrigin

/-- What machine `d` has got from machine `a`, or is on its way, is what `a` has given to the
    network for `d`, in the same order, with some left out. -/
structure Delivers (networkID : Byte) (n : Net T) : Prop where
  incoming : ∀ a, KeepsMail networkID (n.machine a).incoming
  link : ∀ a d, (ofOrigin a ((n.machine d).incoming.entered ++ n.flight d)).Sublist
    (((n.machine a).outgoing.carried.filter fun p => p.dstLink = d).map Packet.packetBytes)

namespace Delivers

variable {networkID : Byte} {n n' : Net T} {a d : Int}

/-- A datagram that a machine has sent can be received. -/
theorem length_le (h : Delivers networkID n) (hok : ∀ a, Ok networkID (n.machine a))
    {bytes : List Byte} (hbytes : bytes ∈ ofOrigin a (n.flight d)) : bytes.length ≤ Packet.maxPacketLength := by
  have hmem : bytes ∈ ofOrigin a ((n.machine d).incoming.entered ++ n.flight d) := by
    rw [ofOrigin_append]
    exact List.mem_append_right _ hbytes
  -- it is one of the packets that `a` has given to the network, and a constructor made those
  obtain ⟨packet, hpacket, rfl⟩ := List.mem_map.mp ((h.link a d).subset hmem)
  obtain ⟨done, waiting, hsent, hcarried, -, -⟩ := (hok a).outgoing.carried
  have hmem : packet ∈ done.map fun x => x.2.packet := by
    rw [hcarried]
    exact (List.mem_filter.mp hpacket).1
  obtain ⟨x, hx, rfl⟩ := List.mem_map.mp hmem
  exact ((hok a).outgoing.kind x (hsent ▸ List.mem_append_left _ hx)).ofBytes.2

/-- Machine `d` gets no more than was on its way. -/
theorem setIncoming (h : Delivers networkID n) {m : Incoming} (hm : KeepsMail networkID m)
    {flight : List (Origin × List Byte)}
    (hlink : ∀ a, (ofOrigin a (m.entered ++ flight)).Sublist
      (ofOrigin a ((n.machine d).incoming.entered ++ n.flight d))) :
    Delivers networkID
      ((n.setMachine d { n.machine d with incoming := m }).setFlight d flight) := by
  have hout (a : Int) : (((n.setMachine d { n.machine d with incoming := m }).setFlight d
      flight).machine a).outgoing = (n.machine a).outgoing := by
    by_cases ha : a = d
    · subst ha
      simp [Net.setMachine, Net.setFlight]
    · simp [Net.setMachine, Net.setFlight, ha]
  refine ⟨fun a => ?_, fun a b => ?_⟩
  · by_cases ha : a = d
    · subst ha
      simpa [Net.setMachine, Net.setFlight] using hm
    · simpa [Net.setMachine, Net.setFlight, ha] using h.incoming a
  · rw [hout]
    by_cases hb : b = d
    · subst hb
      simpa [Net.setMachine, Net.setFlight] using (hlink a).trans (h.link a b)
    · simpa [Net.setMachine, Net.setFlight, hb] using h.link a b

/-- The same when nothing changes on the way. -/
theorem onIncoming (h : Delivers networkID n) {f : Incoming → Except Failure Incoming}
    (hkeeps : ∀ {m'}, f (n.machine d).incoming = .ok m' →
      KeepsMail networkID m' ∧ m'.entered.Sublist (n.machine d).incoming.entered)
    (hstep : n.onIncoming d f = .ok n') : Delivers networkID n' := by
  obtain ⟨m', hm', hn'⟩ := Except.bind_eq_ok.mp hstep
  obtain ⟨hmail, hentered⟩ := hkeeps hm'
  obtain rfl := Except.ok.inj hn'
  have hset := h.setIncoming (d := d) hmail fun a =>
    ofOrigin_sublist (hentered.append_right (n.flight d))
  rwa [Net.setFlight, show Function.update (Net.setMachine n d _).flight d (n.flight d) = n.flight
    from Function.update_eq_self d n.flight] at hset

/-- Datagrams are lost, or come from somewhere else. -/
theorem setFlight (h : Delivers networkID n) {flight : List (Origin × List Byte)}
    (hlink : ∀ a, (ofOrigin a flight).Sublist (ofOrigin a (n.flight d))) :
    Delivers networkID (n.setFlight d flight) := by
  have hset := h.setIncoming (d := d) (h.incoming d) fun a =>
    show (ofOrigin a (_ ++ flight)).Sublist _ by
      rw [ofOrigin_append, ofOrigin_append]
      exact (hlink a).append_left _
  rwa [Net.setMachine, show Function.update n.machine d _ = n.machine
    from Function.update_eq_self d n.machine] at hset

theorem setMachine_incoming {m : Machine T} (hin : m.incoming = (n.machine a).incoming) (b : Int) :
    ((n.setMachine a m).machine b).incoming = (n.machine b).incoming := by
  by_cases hb : b = a
  · subst hb
    simpa [Net.setMachine] using hin
  · simp [Net.setMachine, hb]

/-- Machine `a` goes on sending, with what the network gets of it. -/
theorem setOutgoing (h : Delivers networkID n) {m : Machine T}
    (hin : m.incoming = (n.machine a).incoming)
    (hcarried : (n.machine a).outgoing.carried.Sublist m.outgoing.carried) :
    Delivers networkID (n.setMachine a m) := by
  refine ⟨fun b => ?_, fun b d => ?_⟩
  · rw [setMachine_incoming hin]
    exact h.incoming b
  · rw [setMachine_incoming hin]
    refine (h.link b d).trans ?_
    by_cases hb : b = a
    · subst hb
      simpa [Net.setMachine] using (hcarried.filter _).map Packet.packetBytes
    · simp [Net.setMachine, hb]

/-- The network gets a packet from machine `a`. -/
theorem carry (h : Delivers networkID n) {m : Machine T} {packet : Packet}
    (hin : m.incoming = (n.machine a).incoming)
    (hcarried : m.outgoing.carried = (n.machine a).outgoing.carried ++ [packet]) :
    Delivers networkID ((n.setMachine a m).setFlight packet.dstLink
      ((n.setMachine a m).flight packet.dstLink ++ [(some a, packet.packetBytes)])) := by
  have hset := h.setOutgoing hin (hcarried ▸ List.sublist_append_left _ _)
  refine ⟨hset.incoming, fun b d => ?_⟩
  by_cases hd : d = packet.dstLink
  · subst hd
    by_cases hb : b = a
    · subst hb
      have hlink := (h.link b packet.dstLink).append_right [packet.packetBytes]
      rw [← setMachine_incoming hin] at hlink
      simpa [Net.setMachine, Net.setFlight, ofOrigin, hcarried] using hlink
    · -- what `a` sends is nothing that comes from `b`
      have hother : some a ≠ some b := fun hab => hb (Option.some.inj hab).symm
      simpa [Net.setMachine, Net.setFlight, ofOrigin, hb, hother] using hset.link b packet.dstLink
  · simpa [Net.setFlight, hd] using hset.link b d

/-- The same when the network gets nothing. -/
theorem onOutgoing (h : Delivers networkID n) {f : Outgoing T → Except Failure (Outgoing T)}
    (hkeeps : ∀ {m'}, f (n.machine a).outgoing = .ok m' →
      m'.carried = (n.machine a).outgoing.carried)
    (hstep : n.onOutgoing a f = .ok n') : Delivers networkID n' := by
  obtain ⟨m', hm', hn'⟩ := Except.bind_eq_ok.mp hstep
  obtain rfl := Except.ok.inj hn'
  exact h.setOutgoing rfl (hkeeps hm' ▸ List.Sublist.refl _)

/-- Every event keeps it. -/
theorem step [DecidableEq T] (h : Delivers networkID n) (hok : ∀ a, Ok networkID (n.machine a))
    {event : Event T} (hstep : n.step networkID event = .ok n') :
    Delivers networkID n' := by
  cases event with
  | boot a =>
    obtain rfl := Except.ok.inj hstep
    exact h.setOutgoing rfl (List.Sublist.refl _)
  | send a t mail =>
    simp only [Net.step] at hstep
    split at hstep
    · exact h.onOutgoing (fun hm => Transmitter.call_carried (Outgoing.asserted_eq_ok hm)) hstep
    · obtain rfl := Except.ok.inj hstep
      exact h
  | sendStep a t prefer =>
    simp only [Net.step] at hstep
    exact h.onOutgoing (fun hm => Transmitter.step_carried (Outgoing.asserted_eq_ok hm)) hstep
  | deliver a =>
    simp only [Net.step] at hstep
    split at hstep
    · exact h.onIncoming (fun hm => ⟨(h.incoming a).deliver hm,
        Incoming.deliver_entered hm ▸ List.Sublist.refl _⟩) hstep
    · obtain rfl := Except.ok.inj hstep
      exact h
  | receive a port =>
    simp only [Net.step] at hstep
    exact h.onIncoming (fun hm => ⟨(h.incoming a).receive hm,
      Incoming.receive_entered hm ▸ List.Sublist.refl _⟩) hstep
  | receiveInterrupt a canReceive =>
    simp only [Net.step] at hstep
    split at hstep
    · obtain rfl := Except.ok.inj hstep
      exact h
    · refine h.onIncoming (fun hm => ?_) hstep
      have hmail : KeepsMail networkID { (n.machine a).incoming with
          receiveInterrupts := (n.machine a).incoming.receiveInterrupts - 1 } :=
        ⟨(h.incoming a).accepted, (h.incoming a).delivered, (h.incoming a).mailbox⟩
      have hentered := Incoming.receiveInterrupt_entered hm
      exact ⟨hmail.receiveInterrupt hm, hentered⟩
  | sendInterrupt a canSend prefer =>
    simp only [Net.step] at hstep
    split at hstep
    · obtain rfl := Except.ok.inj hstep
      exact h
    · obtain ⟨⟨packet, m'⟩, hm', hn'⟩ := Except.bind_eq_ok.mp hstep
      have hcarried := Transmitter.interrupt_carried (Outgoing.asserted_eq_ok hm')
      obtain rfl := Except.ok.inj hn'
      dsimp only
      split
      · exact h.carry rfl hcarried
      · -- the packet is dropped on the way
        exact h.setOutgoing rfl (hcarried ▸ List.sublist_append_left _ _)
  | arrive a =>
    simp only [Net.step] at hstep
    split at hstep
    · rename_i origin bytes rest hbytes hflight
      obtain ⟨n₁, hn₁, hn'⟩ := Except.bind_eq_ok.mp hstep
      obtain rfl := Except.ok.inj hn₁
      obtain rfl := Except.ok.inj hn'
      have hmail : KeepsMail networkID { (n.machine a).incoming with
          incomingBytes := some (origin, bytes.take Packet.maxPacketLength) } :=
        ⟨(h.incoming a).accepted, (h.incoming a).delivered, (h.incoming a).mailbox⟩
      refine h.setIncoming hmail fun b => ?_
      by_cases hb : origin = some b
      · -- what a machine sends is not too long for the buffer
        have hlength : bytes.length ≤ Packet.maxPacketLength :=
          h.length_le hok (a := b) (d := a) (by simp [hflight, ofOrigin, hb])
        simp [Incoming.entered, hbytes, hflight, List.take_of_length_le hlength]
      · simp [Incoming.entered, hbytes, hflight, ofOrigin, hb]
    · obtain rfl := Except.ok.inj hstep
      exact h
  | lose a i =>
    -- a loss keeps the order of what is left
    obtain rfl := Except.ok.inj hstep
    exact h.setFlight fun b => ofOrigin_sublist (List.eraseIdx_sublist _ i)
  | inject a bytes =>
    -- bytes from elsewhere have no machine of origin
    obtain rfl := Except.ok.inj hstep
    exact h.setFlight fun b => by simp [ofOrigin]

/-- A run keeps it. -/
theorem run [DecidableEq T] {events : List (Event T)}
    (hvalid : ∀ event ∈ events, event.Valid networkID) : ∀ {n : Net T},
    (∀ a, Ok networkID (n.machine a)) → Delivers networkID n → n.run networkID events = .ok n' →
      (∀ a, Ok networkID (n'.machine a)) ∧ Delivers networkID n' := by
  induction events with
  | nil =>
    intro n hok h hrun
    obtain rfl := Except.ok.inj hrun
    exact ⟨hok, h⟩
  | cons event events ih =>
    intro n hok h hrun
    obtain ⟨n₁, hstep, hok₁⟩ := step_ok hok (hvalid event List.mem_cons_self)
    rw [Net.run, List.foldlM_cons, hstep] at hrun
    exact ih (fun e he => hvalid e (List.mem_cons_of_mem _ he)) hok₁
      (h.step hok hstep) hrun

theorem start : Delivers networkID ({} : Net T) :=
  ⟨fun _ => ⟨by simp, rfl, fun _ => rfl⟩, fun _ _ => by simp [ofOrigin, Incoming.entered]⟩

/-- What machine `a` has given to the network for machine `d` are messages it was told to send. -/
theorem carried_mail {m : Outgoing T} (hsends : Sends networkID m) :
    (((m.carried.filter fun p => p.dstLink = d).map Packet.packetBytes).filterMap
      (MailMessage.ofBytes networkID)).Sublist
      ((m.sent.map Prod.snd).filter fun mail => mail.packet.dstLink = d) := by
  obtain ⟨done, waiting, hsent, hcarried, -, -⟩ := hsends.carried
  -- each message can be read back from its packet
  have hmade : ∀ mail ∈ (done.map Prod.snd).filter fun mail => mail.packet.dstLink = d,
      MailMessage.ofBytes networkID mail.packet.packetBytes = some mail := by
    intro mail hmail
    obtain ⟨x, hx, rfl⟩ := List.mem_map.mp (List.mem_filter.mp hmail).1
    exact (hsends.kind x (hsent ▸ List.mem_append_left _ hx)).ofBytes.1
  have hmails : ((m.carried.filter fun p => p.dstLink = d).map Packet.packetBytes).filterMap
      (MailMessage.ofBytes networkID) =
      (done.map Prod.snd).filter fun mail => mail.packet.dstLink = d := by
    rw [← hcarried, show (done.map fun x => x.2.packet) = (done.map Prod.snd).map MailMessage.packet
      from (List.map_map ..).symm, List.filter_map, List.map_map, List.filterMap_map]
    conv => rhs; rw [← List.filterMap_some (l := List.filter _ _)]
    exact List.filterMap_congr hmade
  rw [hmails, hsent, List.map_append]
  exact (List.sublist_append_left _ _).filter _

/-- The messages that machine `d` has got from machine `a`. -/
theorem mail_sublist (h : Delivers networkID n) (hsends : Sends networkID (n.machine a).outgoing) :
    (ofOrigin a (n.machine d).incoming.delivered).Sublist
      (((n.machine a).outgoing.sent.map Prod.snd).filter fun mail => mail.packet.dstLink = d) := by
  have hmail := h.incoming d
  have hdelivered : (n.machine d).incoming.delivered.Sublist
      ((n.machine d).incoming.accepted.filterMap mailOf) := by
    rw [hmail.delivered, List.append_assoc]
    exact List.sublist_append_left _ _
  have hbytes : ofOrigin a ((n.machine d).incoming.accepted.filterMap mailOf) =
      (ofOrigin a ((n.machine d).incoming.accepted.map fun x => (x.1, x.2.packetBytes))).filterMap
        (MailMessage.ofBytes networkID) := by
    rw [ofOrigin_map, List.filterMap_map]
    refine (ofOrigin_filterMap MailMessage.ofPacket).trans (List.filterMap_congr fun p hp => ?_)
    simp [MailMessage.ofBytes, hmail.accepted _ (mem_ofOrigin.mp hp)]
  -- what `d` has accepted was on its way, in the order in which `a` gave it to the network
  have hentered : (ofOrigin a ((n.machine d).incoming.accepted.map
      fun x => (x.1, x.2.packetBytes))).Sublist
      (((n.machine a).outgoing.carried.filter fun p => p.dstLink = d).map Packet.packetBytes) := by
    refine (ofOrigin_sublist ?_).trans (h.link a d)
    rw [Incoming.entered, List.append_assoc]
    exact List.sublist_append_left _ _
  refine (ofOrigin_sublist hdelivered).trans ?_
  rw [hbytes]
  exact (hentered.filterMap _).trans (carried_mail hsends)

end Delivers

/-! ## Runs -/

/-- A message on its way from machine 0 to port 3 of machine 1. -/
def oneMessage : List (Event Bool) :=
  [.boot 0, .boot 1, .send 0 true ⟨⟨[7, 1, 0, 3, 3, 2, 9], 1, 0, [3, 2, 9]⟩, 3, 2, [9]⟩,
    .sendStep 0 true true, .sendStep 0 true true, .sendInterrupt 0 true true, .arrive 1,
    .receiveInterrupt 1 true, .deliver 1, .deliver 1, .deliver 1]

theorem oneMessage_valid : ∀ event ∈ oneMessage, event.Valid 7 := by
  intro event he
  simp only [oneMessage, List.mem_cons, List.not_mem_nil, or_false] at he
  rcases he with rfl | rfl | rfl | rfl | rfl | rfl | rfl | rfl | rfl | rfl | rfl
  case inr.inr.inl => exact .inl ⟨1, 3, 0, 2, [9], by decide⟩
  all_goals trivial

/-- Inside a machine, nothing is lost, doubled or moved out of order: the link has given the
    network what `send` was called with, in this order, but for the message of a thread that is
    still in `send`; and every message it made of incoming bytes is in the hands of the thread
    of `postalDelivery` or in the mailbox of its port, or has been taken out of there by
    `receive`. -/
theorem run_keeps_mail [DecidableEq T] {networkID : Byte} {events : List (Event T)} {n : Net T}
    (hvalid : ∀ event ∈ events, event.Valid networkID)
    (hrun : ({} : Net T).run networkID events = .ok n) (a : Int) :
    let m := (n.machine a).incoming
    let out := (n.machine a).outgoing
    (∃ done waiting, out.sent = done ++ waiting ∧
      (done.map fun x => x.2.packet) = out.carried ∧
      (waiting.map fun x => x.2.packet) = out.outgoing.toList ∧
      ∀ x ∈ waiting, out.gate.stage x.1 = .beforeP ∨ out.gate.stage x.1 = .waitP) ∧
      m.accepted.filterMap mailOf =
        m.delivered ++ m.delivery.inHand ++ m.incomingPacket.toList.filterMap mailOf ∧
      ∀ port, m.received port ++ m.queues port = m.delivered.filter fun x => x.2.dstPort = port := by
  obtain ⟨hok, h⟩ := Delivers.run hvalid start_ok Delivers.start hrun
  exact ⟨(hok a).outgoing.carried, (h.incoming a).delivered, (h.incoming a).mailbox⟩

/-- Machine 0 has sent the message, and machine 1 has it in its mailbox. -/
theorem run_keeps_mail_one : ∃ n : Net Bool, ({} : Net Bool).run 7 oneMessage = .ok n ∧
    (∃ done waiting, (n.machine 0).outgoing.sent = done ++ waiting ∧
      (done.map fun x => x.2.packet) = (n.machine 0).outgoing.carried ∧
      (waiting.map fun x => x.2.packet) = (n.machine 0).outgoing.outgoing.toList ∧
      ∀ x ∈ waiting, (n.machine 0).outgoing.gate.stage x.1 = .beforeP ∨
        (n.machine 0).outgoing.gate.stage x.1 = .waitP) ∧
    (n.machine 0).outgoing.carried.length = 1 ∧
    (n.machine 1).incoming.accepted.filterMap mailOf =
      (n.machine 1).incoming.delivered ++ (n.machine 1).incoming.delivery.inHand ++
        (n.machine 1).incoming.incomingPacket.toList.filterMap mailOf ∧
    (n.machine 1).incoming.received 3 ++ (n.machine 1).incoming.queues 3 =
      (n.machine 1).incoming.delivered.filter (fun x => x.2.dstPort = 3) ∧
    (n.machine 1).incoming.delivered.length = 1 :=
  ⟨_, rfl, (run_keeps_mail oneMessage_valid rfl 0).1, rfl,
    (run_keeps_mail oneMessage_valid rfl 1).2.1, (run_keeps_mail oneMessage_valid rfl 1).2.2 3, rfl⟩

/-- Of the messages that machine `a` sends to a port of machine `d`, some may get lost; the
    others are in that port's mailbox as they were sent, each once, in the order of `send`. -/
theorem run_mail_in_order [DecidableEq T] {networkID : Byte} {events : List (Event T)} {n : Net T}
    (hvalid : ∀ event ∈ events, event.Valid networkID)
    (hrun : ({} : Net T).run networkID events = .ok n) (a d port : Int) :
    (ofOrigin a ((n.machine d).incoming.received port ++ (n.machine d).incoming.queues port)).Sublist
      (((n.machine a).outgoing.sent.map Prod.snd).filter fun mail =>
        mail.packet.dstLink = d ∧ mail.dstPort = port) := by
  obtain ⟨hok, h⟩ := Delivers.run hvalid start_ok Delivers.start hrun
  rw [(h.incoming d).mailbox, ofOrigin_filter fun mail : MailMessage => decide (mail.dstPort = port)]
  have hsublist := (h.mail_sublist (d := d) (hok a).outgoing).filter
    fun mail => decide (mail.dstPort = port)
  simpa [List.filter_filter, and_comm] using hsublist

theorem run_mail_in_order_one : ∃ n : Net Bool, ({} : Net Bool).run 7 oneMessage = .ok n ∧
    (ofOrigin 0 ((n.machine 1).incoming.received 3 ++ (n.machine 1).incoming.queues 3)).Sublist
      (((n.machine 0).outgoing.sent.map Prod.snd).filter fun mail =>
        mail.packet.dstLink = 1 ∧ mail.dstPort = 3) ∧
    ((n.machine 1).incoming.queues 3).length = 1 :=
  ⟨_, rfl, run_mail_in_order oneMessage_valid rfl 0 1 3, rfl⟩

end PostOffice

end Nachos

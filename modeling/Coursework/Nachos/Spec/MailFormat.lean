import Coursework.Nachos.Mail

/-!
# The mail format

What a machine makes of the bytes of a datagram: exactly the encodings of mail messages are
accepted, with any bytes after them, and each gives back the message it encodes.
-/

namespace Nachos

/-- The message in a datagram. -/
def MailMessage.ofBytes (networkID : Byte) (bytes : List Byte) : Option MailMessage :=
  (Packet.ofBytes networkID bytes).bind MailMessage.ofPacket

/-! ## Bytes of small numbers -/

/-- A number that fits a byte comes back from one. -/
theorem toInt_ofInt_byte {x : Int} (h : 0 ≤ x) (h' : x < 128) : (BitVec.ofInt 8 x).toInt = x := by
  rw [BitVec.toInt_ofInt]
  apply Int.bmod_eq_of_le
  · simp
    omega
  · simp
    omega

/-- A byte comes back from its number. -/
theorem ofInt_toInt_byte (b : Byte) : BitVec.ofInt 8 b.toInt = b := BitVec.ofInt_toInt

/-- A length that fits a byte comes back from one. -/
theorem toInt_ofNat_byte {n : Nat} (h : n < 128) : (BitVec.ofNat 8 n).toInt = n := by
  rw [← BitVec.ofInt_natCast]
  exact toInt_ofInt_byte (by omega) (by omega)

/-- A byte is signed. -/
theorem byte_lt (b : Byte) : b.toInt < 128 := by
  have := BitVec.toInt_lt (x := b)
  simpa using this

namespace Packet

variable {networkID : Byte}

/-- The constructor of a packet: what it checks, and the bytes it makes. -/
theorem new_eq_some {dstLink srcLink : Int} {contents : List Byte} {p : Packet} :
    new networkID dstLink srcLink contents = some p ↔
      (0 ≤ dstLink ∧ dstLink < 128) ∧ (0 ≤ srcLink ∧ srcLink < 128) ∧ contents.length ≤ 28 ∧
        p = ⟨networkID :: BitVec.ofInt 8 dstLink :: BitVec.ofInt 8 srcLink ::
          BitVec.ofNat 8 contents.length :: contents, dstLink, srcLink, contents⟩ := by
  have hmax : maxContentsLength = 28 := rfl
  simp only [new, linkAddressLimit, hmax]
  split
  · simp
    omega
  · simp only [Option.some.injEq]
    constructor
    · rintro rfl
      refine ⟨⟨by omega, by omega⟩, ⟨by omega, by omega⟩, by omega, rfl⟩
    · rintro ⟨-, -, -, rfl⟩
      rfl

/-- The bytes of a packet give the packet, whatever comes after them. -/
theorem ofBytes_new {dstLink srcLink : Int} {contents : List Byte} {p : Packet}
    (h : new networkID dstLink srcLink contents = some p) (pad : List Byte) :
    ofBytes networkID (p.packetBytes ++ pad) = some { p with packetBytes := p.packetBytes ++ pad } := by
  obtain ⟨hdst, hsrc, hlength, rfl⟩ := new_eq_some.mp h
  have hlen := toInt_ofNat_byte (n := contents.length) (by omega)
  simp only [ofBytes, List.cons_append, linkAddressLimit, toInt_ofInt_byte hdst.1 hdst.2,
    toInt_ofInt_byte hsrc.1 hsrc.2, hlen]
  rw [if_neg]
  · simp
  · simp
    omega

/-- Bytes that are accepted begin with the bytes of a packet. -/
theorem new_ofBytes {bytes : List Byte} {p : Packet} (hlength : bytes.length ≤ maxPacketLength)
    (h : ofBytes networkID bytes = some p) :
    ∃ p' pad, new networkID p.dstLink p.srcLink p.contents = some p' ∧
      bytes = p'.packetBytes ++ pad ∧ p = { p' with packetBytes := bytes } := by
  simp only [ofBytes] at h
  split at h
  · rename_i id dst src length rest
    split at h
    · exact nomatch h
    · rename_i hok
      simp only [linkAddressLimit, not_or, Int.not_lt, Int.not_le, not_not, List.length_cons] at hok
      obtain ⟨rfl, hdst, -, hsrc, -, hlen, hfit⟩ := hok
      obtain rfl := Option.some.inj h
      have hmax : maxPacketLength = 32 := rfl
      have htake : (rest.take length.toInt.toNat).length = length.toInt.toNat := by
        rw [List.length_take]
        omega
      have hback : BitVec.ofNat 8 (rest.take length.toInt.toNat).length = length := by
        rw [htake, ← BitVec.ofInt_natCast, Int.toNat_of_nonneg hlen]
        exact BitVec.ofInt_toInt
      refine ⟨_, rest.drop length.toInt.toNat, new_eq_some.mpr ⟨⟨hdst, byte_lt dst⟩,
        ⟨hsrc, byte_lt src⟩, ?_, rfl⟩, ?_, rfl⟩
      · simp only [List.length_cons] at hlength ⊢
        omega
      · rw [hback, ofInt_toInt_byte, ofInt_toInt_byte]
        simp
  · exact nomatch h

end Packet

namespace MailMessage

variable {networkID : Byte}

/-- The constructor of a message: what it checks, and the packet it makes, whose contents begin with
    the two ports. -/
theorem new_eq_some {dstLink dstPort srcLink srcPort : Int} {contents : List Byte}
    {m : MailMessage} :
    new networkID dstLink dstPort srcLink srcPort contents = some m ↔
      (0 ≤ dstPort ∧ dstPort < 128) ∧ (0 ≤ srcPort ∧ srcPort < 128) ∧ contents.length ≤ 26 ∧
        ∃ p, Packet.new networkID dstLink srcLink
          (BitVec.ofInt 8 dstPort :: BitVec.ofInt 8 srcPort :: contents) = some p ∧
          m = ⟨p, dstPort, srcPort, contents⟩ := by
  have hmax : maxContentsLength = 26 := rfl
  simp only [new, portLimit, hmax]
  split
  · simp
    omega
  · rename_i hok
    have hdst : 0 ≤ dstPort ∧ dstPort < 128 := by omega
    have hsrc : 0 ≤ srcPort ∧ srcPort < 128 := by omega
    have hlength : contents.length ≤ 26 := by omega
    simp only [toInt_ofInt_byte hdst.1 hdst.2, toInt_ofInt_byte hsrc.1 hsrc.2]
    constructor
    · intro h
      obtain ⟨p, hp, h⟩ := Option.bind_eq_some_iff.mp h
      exact ⟨hdst, hsrc, hlength, p, hp, (Option.some.inj h).symm⟩
    · rintro ⟨-, -, -, p, hp, rfl⟩
      exact Option.bind_eq_some_iff.mpr ⟨p, hp, rfl⟩

/-- The constructor of an incoming message: a packet is taken for a message if its contents begin
    with two ports. -/
theorem ofPacket_eq_some {p : Packet} {m : MailMessage} :
    ofPacket p = some m ↔
      (0 ≤ m.dstPort ∧ m.dstPort < 128) ∧ (0 ≤ m.srcPort ∧ m.srcPort < 128) ∧
        p.contents = BitVec.ofInt 8 m.dstPort :: BitVec.ofInt 8 m.srcPort :: m.contents ∧
        m.packet = p := by
  constructor
  · intro h
    simp only [ofPacket] at h
    split at h
    · rename_i dst src contents hcontents
      split at h
      · exact nomatch h
      · rename_i hok
        obtain rfl := Option.some.inj h
        refine ⟨⟨by simp only; omega, byte_lt dst⟩, ⟨by simp only; omega, byte_lt src⟩, ?_, rfl⟩
        rw [hcontents, ofInt_toInt_byte, ofInt_toInt_byte]
    · exact nomatch h
  · rintro ⟨hdst, hsrc, hcontents, rfl⟩
    simp only [ofPacket, hcontents, toInt_ofInt_byte hdst.1 hdst.2, toInt_ofInt_byte hsrc.1 hsrc.2,
      portLimit]
    rw [if_neg (by omega)]

/-- A datagram of a length that can be received is a message if and only if it is the encoding
    of this message, with some bytes after it. -/
theorem ofBytes_eq_some {bytes : List Byte} {m : MailMessage}
    (hlength : bytes.length ≤ Packet.maxPacketLength) :
    ofBytes networkID bytes = some m ↔
      ∃ m' pad, new networkID m.packet.dstLink m.dstPort m.packet.srcLink m.srcPort m.contents =
          some m' ∧ bytes = m'.packet.packetBytes ++ pad ∧
        m = { m' with packet := { m'.packet with packetBytes := bytes } } := by
  rw [ofBytes, Option.bind_eq_some_iff]
  constructor
  · rintro ⟨p, hp, hm⟩
    obtain ⟨hdst, hsrc, hcontents, rfl⟩ := ofPacket_eq_some.mp hm
    obtain ⟨p', pad, hnew, hbytes, hp'⟩ := Packet.new_ofBytes hlength hp
    have hfit := (Packet.new_eq_some.mp hnew).2.2.1
    rw [hcontents] at hnew hfit
    simp only [List.length_cons] at hfit
    refine ⟨_, pad, new_eq_some.mpr ⟨hdst, hsrc, by omega, p', hnew, rfl⟩, hbytes, ?_⟩
    rw [← hp']
  · rintro ⟨m', pad, hnew, hbytes, hm⟩
    obtain ⟨hdst, hsrc, -, p, hp, rfl⟩ := new_eq_some.mp hnew
    have hof := Packet.ofBytes_new hp pad
    obtain ⟨-, -, -, hp'⟩ := Packet.new_eq_some.mp hp
    rw [← hbytes] at hof
    refine ⟨_, hof, ofPacket_eq_some.mpr ⟨hdst, hsrc, ?_, ?_⟩⟩
    · rw [hp']
    · rw [hm]

/-- A message for port 3 of link 1 from port 2 of link 0, with a byte after it. -/
theorem ofBytes_eq_some_padded : ofBytes 7 [7, 1, 0, 3, 3, 2, 9, 5] =
    some ⟨⟨[7, 1, 0, 3, 3, 2, 9, 5], 1, 0, [3, 2, 9]⟩, 3, 2, [9]⟩ :=
  (ofBytes_eq_some (by decide)).mpr
    ⟨⟨⟨[7, 1, 0, 3, 3, 2, 9], 1, 0, [3, 2, 9]⟩, 3, 2, [9]⟩, [5], by decide, by decide, by decide⟩

end MailMessage

end Nachos

import Mathlib.Data.List.Basic

/-!
# Packets and mail messages

`machine/Packet.java` and `network/MailMessage.java`: each has a constructor that makes the
bytes of a message and one that takes them apart. An `int` of the source is an `Int` here
and a byte is a number with a sign, so that the tests for negative bytes are the source's.
`none` is a `MalformedPacketException`.
-/

namespace Nachos

/-- A Java `byte`. -/
abbrev Byte := BitVec 8

namespace Packet

/-- `Packet.headerLength`. -/
def headerLength : Nat := 4

/-- `Packet.maxPacketLength`. -/
def maxPacketLength : Nat := 32

/-- `Packet.maxContentsLength`. -/
def maxContentsLength : Nat := maxPacketLength - headerLength

/-- `Packet.linkAddressLimit`. -/
def linkAddressLimit : Int := 128

end Packet

/-- A link-layer packet. -/
structure Packet where
  packetBytes : List Byte
  dstLink : Int
  srcLink : Int
  contents : List Byte
  deriving DecidableEq, Repr

namespace Packet

/-- `new Packet(dstLink, srcLink, contents)`, on the network `networkID`. -/
def new (networkID : Byte) (dstLink srcLink : Int) (contents : List Byte) : Option Packet :=
  if dstLink < 0 ∨ linkAddressLimit ≤ dstLink ∨ srcLink < 0 ∨ linkAddressLimit ≤ srcLink ∨
      maxContentsLength < contents.length then none
  else
    some
      { dstLink, srcLink, contents
        packetBytes := networkID :: BitVec.ofInt 8 dstLink :: BitVec.ofInt 8 srcLink ::
          BitVec.ofNat 8 contents.length :: contents }

/-- `new Packet(packetBytes)`. -/
def ofBytes (networkID : Byte) (packetBytes : List Byte) : Option Packet :=
  match packetBytes with
  | id :: dst :: src :: length :: rest =>
    if id ≠ networkID ∨ dst.toInt < 0 ∨ linkAddressLimit ≤ dst.toInt ∨
        src.toInt < 0 ∨ linkAddressLimit ≤ src.toInt ∨
        length.toInt < 0 ∨ (packetBytes.length : Int) - 4 < length.toInt then none
    else
      some { packetBytes, dstLink := dst.toInt, srcLink := src.toInt
             contents := rest.take length.toInt.toNat }
  | _ => none

end Packet

namespace MailMessage

/-- `MailMessage.headerLength`. -/
def headerLength : Nat := 2

/-- `MailMessage.maxContentsLength`. -/
def maxContentsLength : Nat := Packet.maxContentsLength - headerLength

/-- `MailMessage.portLimit`. -/
def portLimit : Int := 128

end MailMessage

/-- A mail message. -/
structure MailMessage where
  packet : Packet
  dstPort : Int
  srcPort : Int
  contents : List Byte
  deriving DecidableEq, Repr

namespace MailMessage

/-- `new MailMessage(dstLink, dstPort, srcLink, srcPort, contents)`. -/
def new (networkID : Byte) (dstLink dstPort srcLink srcPort : Int) (contents : List Byte) :
    Option MailMessage :=
  if dstPort < 0 ∨ portLimit ≤ dstPort ∨ srcPort < 0 ∨ portLimit ≤ srcPort ∨
      maxContentsLength < contents.length then none
  else do
    let packet ← Packet.new networkID dstLink srcLink
      (BitVec.ofInt 8 dstPort :: BitVec.ofInt 8 srcPort :: contents)
    return { packet, contents
             dstPort := (BitVec.ofInt 8 dstPort).toInt, srcPort := (BitVec.ofInt 8 srcPort).toInt }

/-- `new MailMessage(packet)`. -/
def ofPacket (packet : Packet) : Option MailMessage :=
  match packet.contents with
  | dst :: src :: contents =>
    if dst.toInt < 0 ∨ portLimit ≤ dst.toInt ∨ src.toInt < 0 ∨ portLimit ≤ src.toInt then none
    else some { packet, dstPort := dst.toInt, srcPort := src.toInt, contents }
  | _ => none

end MailMessage

end Nachos

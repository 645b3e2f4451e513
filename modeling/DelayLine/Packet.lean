import DelayLine.Rule.Basic

/-!
# Packets

A packet is a link prefix of four bytes followed by an IP packet. Decoding never looks behind the
end of the packet: each decoder checks the length first and reports what is missing. The length of
a header is a machine word, so the place of the transport header behind it is found modulo
`2 ^ 64`.
-/

namespace DelayLine

/-- The bytes of a packet, link prefix included. -/
abbrev Packet := Bytes

inductive DecodeFault where
  | missingPrefix
  | truncatedHeader
  | headerLength (words : UInt8)
  | truncatedTransport
  | noPorts (protocol : UInt8)
deriving DecidableEq, Repr

def DecodeFault.message : DecodeFault → Text
  | missingPrefix => "packet ends inside the link-layer prefix".toList
  | truncatedHeader => "truncated IPv4 header".toList
  | headerLength words =>
    "invalid IPv4 header length of ".toList ++ Numeral.render words.toNat ++ " words".toList
  | truncatedTransport => "truncated transport header".toList
  | noPorts protocol =>
    "protocol ".toList ++ Numeral.render protocol.toNat ++ " has no ports".toList

/-- The fields of an IPv4 header that rules look at. -/
structure Header where
  protocol : UInt8
  source : Address
  destination : Address
  length : UInt64
deriving DecidableEq, Repr

structure Ports where
  source : UInt16
  destination : UInt16
deriving DecidableEq, Repr

/-- The address that faces away from the emulated host. -/
def Header.remote (h : Header) : Direction → Address
  | .uplink => h.destination
  | .downlink => h.source

def Header.transportOffset (h : Header) : UInt64 := 4 + h.length

/-- The port that faces away from the emulated host. -/
def Ports.remote (p : Ports) : Direction → UInt16
  | .uplink => p.destination
  | .downlink => p.source

namespace Packet

def size (p : Packet) : UInt64 := saturate p.length

/-- Adding a length stops at the largest amount, however long the packet is. -/
theorem toNat_satAdd_size (a : UInt64) (p : Packet) :
    (satAdd a p.size).toNat = min (a.toNat + p.length) maxAmount.toNat := by
  rw [toNat_satAdd, size, toNat_saturate]
  omega

theorem toNat_satAdd_size_of_eq {a : UInt64} {n : Nat} (h : a.toNat = min n maxAmount.toNat)
    (p : Packet) : (satAdd a p.size).toNat = min (n + p.length) maxAmount.toNat := by
  rw [toNat_satAdd_size, h]
  omega

/-- The byte at an offset, zero behind the end. -/
def byte (p : Packet) (offset : Nat) : UInt8 := p.getD offset 0

def address (p : Packet) (offset : Nat) : Address :=
  ⟨p.byte offset, p.byte (offset + 1), p.byte (offset + 2), p.byte (offset + 3)⟩

/-- The port at an offset, the first byte most significant. -/
def port (p : Packet) (offset : Nat) : UInt16 :=
  .ofNat ((p.byte offset).toNat * 256 + (p.byte (offset + 1)).toNat)

def version (p : Packet) : Except DecodeFault UInt8 :=
  if p.length ≤ 4 then throw .missingPrefix else return p.byte 4 >>> 4

/-- The byte at the place of the protocol number in an IPv4 header. -/
def protocolByte? (p : Packet) : Option UInt8 := p[13]?

/-- The IPv4 header, whatever the version. -/
def header (p : Packet) : Except DecodeFault Header :=
  let words := p.byte 4 &&& 15
  let length := words.toNat * 4
  if p.length < 4 then throw .missingPrefix
  else if p.length < 24 then throw .truncatedHeader
  else if length < 20 then throw (.headerLength words)
  else if p.length < 4 + length then throw .truncatedHeader
  else return ⟨p.byte 13, p.address 16, p.address 20, .ofNat length⟩

def ports (p : Packet) (h : Header) : Except DecodeFault Ports :=
  let start := h.transportOffset
  let stop := start + 4
  if h.protocol ≠ Protocol.tcp ∧ h.protocol ≠ Protocol.udp then throw (.noPorts h.protocol)
  else if start ≤ stop ∧ stop.toNat ≤ p.length then
    return ⟨p.port start.toNat, p.port (start.toNat + 2)⟩
  else throw .truncatedTransport

end Packet

end DelayLine

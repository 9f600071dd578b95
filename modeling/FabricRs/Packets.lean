/-
  FabricRs.Packets — the Ethernet, disco and route headers (`disco-rs`, pnet).

  A header's accessors read and write its fields at the offsets of its declaration, in
  network order; `hdr` is the header as a whole, its fields side by side.

  - `EthernetPacket.new_hdr`, `DiscoHdrPacket.new_hdr`: what a parsed buffer begins with is
    exactly the encoding of the fields the accessors read.
-/

import FabricRs.Basic

namespace FabricRs

open Wire (Codec Bytes Packet)

abbrev U16 := BitVec 16

namespace EthernetPacket

def minimumPacketSize : Nat := 14

end EthernetPacket

/-- pnet's `EthernetPacket` and `MutableEthernetPacket`. -/
abbrev EthernetPacket := Packet EthernetPacket.minimumPacketSize

namespace EthernetPacket

def new (buf : Bytes) : Option EthernetPacket := Packet.new minimumPacketSize buf

def getDestination (p : EthernetPacket) : MacAddr := p.get MacAddr.codec 0
def getSource (p : EthernetPacket) : MacAddr := p.get MacAddr.codec 6
def getEthertype (p : EthernetPacket) : U16 := p.get Wire.u16be 12

def setDestination (m : MacAddr) (p : EthernetPacket) : EthernetPacket := p.set MacAddr.codec 0 (by decide) m
def setSource (m : MacAddr) (p : EthernetPacket) : EthernetPacket := p.set MacAddr.codec 6 (by decide) m
def setEthertype (t : U16) (p : EthernetPacket) : EthernetPacket := p.set Wire.u16be 12 (by decide) t

/-- Destination, source and ethertype. -/
def hdr : Codec (MacAddr × MacAddr × U16) := MacAddr.codec.prod (MacAddr.codec.prod Wire.u16be)

theorem new_hdr {buf : Bytes} {p : EthernetPacket} (h : new buf = some p) :
    buf = hdr.enc (p.getDestination, p.getSource, p.getEthertype) ++ p.payload := by
  have h := Packet.new_eq_some.mp h
  have hl : 14 ≤ p.packet.length := p.fits
  have h1 := Wire.drop_field MacAddr.codec 0 (l := p.packet) (by show 0 + 6 ≤ _; omega)
  have h2 := Wire.drop_field MacAddr.codec 6 (l := p.packet) (by show 6 + 6 ≤ _; omega)
  have h3 := Wire.drop_field Wire.u16be 12 (l := p.packet) (by show 12 + 2 ≤ _; omega)
  show buf = (MacAddr.codec.enc _ ++ (MacAddr.codec.enc _ ++ Wire.u16be.enc _)) ++ p.packet.drop 14
  rw [List.append_assoc, List.append_assoc]
  exact h.symm.trans (h1.trans (congrArg _ (h2.trans (congrArg _ h3))))

theorem new_enc (dst src : MacAddr) (t : U16) (rest : Bytes) :
    ∃ p, new (hdr.enc (dst, src, t) ++ rest) = some p ∧ p.getEthertype = t ∧ p.payload = rest := by
  have hl : (hdr.enc (dst, src, t)).length = minimumPacketSize := hdr.enc_length _
  refine ⟨⟨hdr.enc (dst, src, t) ++ rest, by rw [List.length_append, hl]; omega⟩, Packet.new_eq_some.mpr rfl, ?_, ?_⟩
  · exact Wire.get_append Wire.u16be 12 (MacAddr.codec.enc dst ++ MacAddr.codec.enc src) t rest rfl
  · exact List.drop_left' hl

end EthernetPacket

namespace EtherTypes

def arp : U16 := 0x0806

end EtherTypes

/-- pnet's `ArpPacket`; no field of one is read. -/
def ArpPacket.new (buf : Bytes) : Option (Packet 28) := Packet.new 28 buf

namespace DiscoHdrPacket

def minimumPacketSize : Nat := 15

end DiscoHdrPacket

abbrev DiscoHdrPacket := Packet DiscoHdrPacket.minimumPacketSize

namespace DiscoHdrPacket

def new (buf : Bytes) : Option DiscoHdrPacket := Packet.new minimumPacketSize buf

def getId (p : DiscoHdrPacket) : U32 := p.get Wire.u32be 0
def getIp (p : DiscoHdrPacket) : U32 := p.get Wire.u32be 4
def getMac (p : DiscoHdrPacket) : MacAddr := p.get MacAddr.codec 8
def getOp (p : DiscoHdrPacket) : U8 := p.get Wire.u8 14

def setId (id : U32) (p : DiscoHdrPacket) : DiscoHdrPacket := p.set Wire.u32be 0 (by decide) id
def setIp (ip : U32) (p : DiscoHdrPacket) : DiscoHdrPacket := p.set Wire.u32be 4 (by decide) ip
def setMac (mac : MacAddr) (p : DiscoHdrPacket) : DiscoHdrPacket := p.set MacAddr.codec 8 (by decide) mac
def setOp (op : U8) (p : DiscoHdrPacket) : DiscoHdrPacket := p.set Wire.u8 14 (by decide) op

/-- Id, IP, MAC and op. -/
def hdr : Codec (U32 × U32 × MacAddr × U8) := Wire.u32be.prod (Wire.u32be.prod (MacAddr.codec.prod Wire.u8))

theorem new_hdr {buf : Bytes} {p : DiscoHdrPacket} (h : new buf = some p) :
    buf = hdr.enc (p.getId, p.getIp, p.getMac, p.getOp) ++ p.payload := by
  have h := Packet.new_eq_some.mp h
  have hl : 15 ≤ p.packet.length := p.fits
  have h1 := Wire.drop_field Wire.u32be 0 (l := p.packet) (by show 0 + 4 ≤ _; omega)
  have h2 := Wire.drop_field Wire.u32be 4 (l := p.packet) (by show 4 + 4 ≤ _; omega)
  have h3 := Wire.drop_field MacAddr.codec 8 (l := p.packet) (by show 8 + 6 ≤ _; omega)
  have h4 := Wire.drop_field Wire.u8 14 (l := p.packet) (by show 14 + 1 ≤ _; omega)
  show buf = (Wire.u32be.enc _ ++ (Wire.u32be.enc _ ++ (MacAddr.codec.enc _ ++ Wire.u8.enc _))) ++ p.packet.drop 15
  rw [List.append_assoc, List.append_assoc, List.append_assoc]
  exact h.symm.trans (h1.trans (congrArg _ (h2.trans (congrArg _ (h3.trans (congrArg _ h4))))))

theorem new_enc (id ip : U32) (mac : MacAddr) (op : U8) (rest : Bytes) :
    ∃ p, new (hdr.enc (id, ip, mac, op) ++ rest) = some p ∧ p.getId = id ∧ p.getIp = ip ∧ p.getMac = mac ∧
      p.getOp = op := by
  have hl : (hdr.enc (id, ip, mac, op)).length = minimumPacketSize := hdr.enc_length _
  refine ⟨⟨hdr.enc (id, ip, mac, op) ++ rest, by rw [List.length_append, hl]; omega⟩, Packet.new_eq_some.mpr rfl,
    ?_, ?_, ?_, ?_⟩
  · exact Wire.get_append Wire.u32be 0 [] id
      ((Wire.u32be.enc ip ++ (MacAddr.codec.enc mac ++ Wire.u8.enc op)) ++ rest) rfl
  · exact Wire.get_append Wire.u32be 4 (Wire.u32be.enc id) ip
      ((MacAddr.codec.enc mac ++ Wire.u8.enc op) ++ rest) rfl
  · exact Wire.get_append MacAddr.codec 8 (Wire.u32be.enc id ++ Wire.u32be.enc ip) mac
      (Wire.u8.enc op ++ rest) rfl
  · exact Wire.get_append Wire.u8 14 (Wire.u32be.enc id ++ Wire.u32be.enc ip ++ MacAddr.codec.enc mac) op
      rest rfl

end DiscoHdrPacket

/-- The same bytes with the same accessors, and setters besides. -/
abbrev MutableDiscoHdrPacket := DiscoHdrPacket

def MutableDiscoHdrPacket.new (buf : Bytes) : Option MutableDiscoHdrPacket := DiscoHdrPacket.new buf

/-- `DiscoHdr::LEN`, two bytes short of the layout. -/
def DiscoHdr.len : Nat := 13

namespace DiscoRouteHdrPacket

def minimumPacketSize : Nat := 9

end DiscoRouteHdrPacket

/-- `DiscoRouteHdrPacket` and `MutableDiscoRouteHdrPacket`. -/
abbrev DiscoRouteHdrPacket := Packet DiscoRouteHdrPacket.minimumPacketSize

namespace DiscoRouteHdrPacket

def new (buf : Bytes) : Option DiscoRouteHdrPacket := Packet.new minimumPacketSize buf

def getIp (p : DiscoRouteHdrPacket) : U32 := p.get Wire.u32be 0
def getHops (p : DiscoRouteHdrPacket) : U32 := p.get Wire.u32be 4
def getPrefixLen (p : DiscoRouteHdrPacket) : U8 := p.get Wire.u8 8

def setIp (ip : U32) (p : DiscoRouteHdrPacket) : DiscoRouteHdrPacket := p.set Wire.u32be 0 (by decide) ip
def setHops (hops : U32) (p : DiscoRouteHdrPacket) : DiscoRouteHdrPacket := p.set Wire.u32be 4 (by decide) hops
def setPrefixLen (l : U8) (p : DiscoRouteHdrPacket) : DiscoRouteHdrPacket := p.set Wire.u8 8 (by decide) l

/-- Ip, hops and prefix length. -/
def hdr : Codec (U32 × U32 × U8) := Wire.u32be.prod (Wire.u32be.prod Wire.u8)

/-- The fields as the accessors read them. -/
def fields (p : DiscoRouteHdrPacket) : U32 × U32 × U8 := (p.getIp, p.getHops, p.getPrefixLen)

theorem packet_eq (p : DiscoRouteHdrPacket) : p.packet = hdr.enc p.fields ++ p.payload := by
  have hl : 9 ≤ p.packet.length := p.fits
  have h1 := Wire.drop_field Wire.u32be 0 (l := p.packet) (by show 0 + 4 ≤ _; omega)
  have h2 := Wire.drop_field Wire.u32be 4 (l := p.packet) (by show 4 + 4 ≤ _; omega)
  have h3 := Wire.drop_field Wire.u8 8 (l := p.packet) (by show 8 + 1 ≤ _; omega)
  show p.packet = (Wire.u32be.enc _ ++ (Wire.u32be.enc _ ++ Wire.u8.enc _)) ++ p.packet.drop 9
  rw [List.append_assoc, List.append_assoc]
  exact h1.trans (congrArg _ (h2.trans (congrArg _ h3)))

/-- The accessors read the fields a buffer begins with. -/
theorem fields_eq {p : DiscoRouteHdrPacket} {r : U32 × U32 × U8} {rest : Bytes} (h : p.packet = hdr.enc r ++ rest) :
    p.fields = r := by
  have henc := (List.append_inj (p.packet_eq.symm.trans h) (by rw [hdr.enc_length, hdr.enc_length])).1
  rw [← hdr.dec_enc p.fields, henc, hdr.dec_enc]

end DiscoRouteHdrPacket

/-- `DiscoRouteHdr::LEN`. -/
def DiscoRouteHdr.len : Nat := 9

end FabricRs

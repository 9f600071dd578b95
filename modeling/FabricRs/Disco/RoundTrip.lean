/-
  FabricRs.Disco.RoundTrip — a disco packet packed and parsed back.

  `pack` is how the route sender fills a zeroed buffer of a given size: the setters, then
  the route packets as the payload. The parser takes every whole nine bytes past the
  fixed fields for a route header, so the size decides what it finds: fifteen bytes and
  nine for each route, or up to eight more.

  - `roundTripsIn_iff`: no other size round-trips.
  - `never_round_trips`: `DiscoHdr::LEN` counts thirteen, so no packet of the crate's own
    size does; and the hello's buffer has nine bytes too many.
-/

import FabricRs.Disco.RouteHdrs
import FabricRs.UserSpace.Handler

namespace FabricRs.Disco

open Wire (Bytes Packet)
open UserSpace (discoHello)

/-- The fixed fields through their setters. -/
def setHdr (id ip : U32) (mac : MacAddr) (op : U8) (discoPacket : MutableDiscoHdrPacket) : MutableDiscoHdrPacket :=
  let discoPacket := discoPacket.setId id
  let discoPacket := discoPacket.setIp ip
  let discoPacket := discoPacket.setMac mac
  discoPacket.setOp op

/-- The packet for `routes` in a buffer of `bufferSize` bytes; `none` where an `unwrap` or
    the copy of the payload panics. -/
def pack (bufferSize : Nat) (id ip : U32) (mac : MacAddr) (op : U8) (routes : List (U32 × U32 × U8)) :
    Option MutableDiscoHdrPacket := do
  let discoBuffer := List.replicate bufferSize 0
  let discoPacket ← MutableDiscoHdrPacket.new discoBuffer
  let discoPacket := setHdr id ip mac op discoPacket
  let rpList ← rpList routes
  discoPacket.setPayload rpList

/-- `buf` parses to these fields and exactly these routes. -/
def Parses (buf : Bytes) (id ip : U32) (mac : MacAddr) (op : U8) (routes : List (U32 × U32 × U8)) : Prop :=
  ∃ p rs, DiscoHdrPacket.new buf = some p ∧ p.getId = id ∧ p.getIp = ip ∧ p.getMac = mac ∧ p.getOp = op ∧
    p.routeHdrs = some rs ∧ rs.map (·.fields) = routes

def RoundTripsIn (bufferSize : Nat) (id ip : U32) (mac : MacAddr) (op : U8) (routes : List (U32 × U32 × U8)) : Prop :=
  ∃ p, pack bufferSize id ip mac op routes = some p ∧ Parses p.packet id ip mac op routes

/-- In a buffer sized by the crate's own lengths. -/
def RoundTrips (id ip : U32) (mac : MacAddr) (op : U8) (routes : List (U32 × U32 × U8)) : Prop :=
  RoundTripsIn (DiscoHdr.len + routes.length * DiscoRouteHdr.len) id ip mac op routes

/-- The hello on an interface parses to no routes. -/
def HelloHasNoRoutes (id : U32) (interface : Interface) : Prop :=
  ∃ sent eth p, discoHello id interface = some sent ∧ EthernetPacket.new sent.msg = some eth ∧
    DiscoHdrPacket.new eth.payload = some p ∧ p.routeHdrs = some []

/-! ## Packing -/

/-- Each setter leaves the fields set before it, and none touches the payload. -/
theorem setHdr_packet (id ip : U32) (mac : MacAddr) (op : U8) (p : MutableDiscoHdrPacket) :
    (setHdr id ip mac op p).packet = DiscoHdrPacket.hdr.enc (id, ip, mac, op) ++ p.payload := by
  have hid : DiscoHdrPacket.getId (setHdr id ip mac op p) = id := by
    unfold setHdr DiscoHdrPacket.getId DiscoHdrPacket.setOp DiscoHdrPacket.setMac DiscoHdrPacket.setIp
    rw [Packet.get_set_ne (by decide), Packet.get_set_ne (by decide), Packet.get_set_ne (by decide)]
    exact Packet.get_set
  have hip : DiscoHdrPacket.getIp (setHdr id ip mac op p) = ip := by
    unfold setHdr DiscoHdrPacket.getIp DiscoHdrPacket.setOp DiscoHdrPacket.setMac
    rw [Packet.get_set_ne (by decide), Packet.get_set_ne (by decide)]
    exact Packet.get_set
  have hmac : DiscoHdrPacket.getMac (setHdr id ip mac op p) = mac := by
    unfold setHdr DiscoHdrPacket.getMac DiscoHdrPacket.setOp
    rw [Packet.get_set_ne (by decide)]
    exact Packet.get_set
  have hop : DiscoHdrPacket.getOp (setHdr id ip mac op p) = op := by
    unfold setHdr DiscoHdrPacket.getOp DiscoHdrPacket.setOp
    exact Packet.get_set
  have hpay : (setHdr id ip mac op p).payload = p.payload := by
    unfold setHdr DiscoHdrPacket.setOp DiscoHdrPacket.setMac DiscoHdrPacket.setIp DiscoHdrPacket.setId
    rw [Packet.payload_set, Packet.payload_set, Packet.payload_set, Packet.payload_set]
  have h := DiscoHdrPacket.new_hdr (Packet.new_eq_some.mpr rfl : DiscoHdrPacket.new (setHdr id ip mac op p).packet = _)
  rw [hid, hip, hmac, hop, hpay] at h
  exact h

/-- What a packed buffer holds, if the routes fit: zeros after them. -/
theorem pack_eq_some {size : Nat} {id ip : U32} {mac : MacAddr} {op : U8} {routes : List (U32 × U32 × U8)}
    {p : MutableDiscoHdrPacket} : pack size id ip mac op routes = some p ↔
      15 + 9 * routes.length ≤ size ∧ p.packet = DiscoHdrPacket.hdr.enc (id, ip, mac, op) ++
        (Wire.encAll DiscoRouteHdrPacket.hdr routes ++ List.replicate (size - (15 + 9 * routes.length)) 0) := by
  have hhdr : (DiscoHdrPacket.hdr.enc (id, ip, mac, op)).length = 15 := DiscoHdrPacket.hdr.enc_length _
  have hvals : (Wire.encAll DiscoRouteHdrPacket.hdr routes).length = routes.length * 9 := Wire.length_encAll _ _
  unfold pack
  rw [rpList_eq]
  by_cases hs : 15 ≤ size
  · obtain ⟨q, hnew, -, hpay⟩ : ∃ q, MutableDiscoHdrPacket.new (List.replicate size 0) = some q ∧ _ ∧
        q.payload = (List.replicate size 0).drop 15 := Packet.exists_new (by rw [List.length_replicate]; exact hs)
    rw [List.drop_replicate] at hpay
    show (MutableDiscoHdrPacket.new (List.replicate size 0)).bind _ = _ ↔ _
    rw [hnew, Option.bind_some]
    show Packet.setPayload _ (setHdr id ip mac op q) = some p ↔ _
    rw [Packet.setPayload_eq_some, setHdr_packet, hpay, List.length_append, List.length_replicate, hhdr, hvals]
    show _ ∧ p.packet = Wire.splice 15 _ _ ↔ _
    rw [Wire.splice_append hhdr, hvals, List.drop_replicate, Nat.sub_sub, Nat.mul_comm]
    refine and_congr_left fun _ => ?_
    show 15 + 9 * routes.length ≤ _ ↔ _
    omega
  · have hnew : MutableDiscoHdrPacket.new (List.replicate size 0) = none := by
      refine dif_neg fun h => hs ?_
      rw [List.length_replicate] at h
      exact h
    show (MutableDiscoHdrPacket.new (List.replicate size 0)).bind _ = _ ↔ _
    rw [hnew]
    refine ⟨fun h => ?_, fun h => ?_⟩
    · cases h
    · have := h.1
      omega

/-! ## Parsing back -/

/-- What a buffer of a header, routes and further bytes parses to: those routes, and one
    more for every nine bytes after them. -/
theorem parses_append {id ip : U32} {mac : MacAddr} {op : U8} {routes routes' : List (U32 × U32 × U8)} {rest : Bytes} :
    Parses (DiscoHdrPacket.hdr.enc (id, ip, mac, op) ++ (Wire.encAll DiscoRouteHdrPacket.hdr routes ++ rest))
      id ip mac op routes' ↔ routes' = routes ++ Wire.records DiscoRouteHdrPacket.hdr (rest.length / 9) rest := by
  obtain ⟨p, hp, h1, h2, h3, h4⟩ :=
    DiscoHdrPacket.new_enc id ip mac op (Wire.encAll DiscoRouteHdrPacket.hdr routes ++ rest)
  have hpay : p.payload = Wire.encAll DiscoRouteHdrPacket.hdr routes ++ rest := by
    unfold Packet.payload
    rw [Packet.new_eq_some.mp hp]
    exact List.drop_left' (DiscoHdrPacket.hdr.enc_length _)
  obtain ⟨rs, hrs, hf⟩ := routeHdrs_eq p.payload
  rw [hpay] at hf
  have hall : Wire.records DiscoRouteHdrPacket.hdr (numberOfRouteHdrs (Wire.encAll DiscoRouteHdrPacket.hdr routes ++ rest))
      (Wire.encAll DiscoRouteHdrPacket.hdr routes ++ rest) =
        routes ++ Wire.records DiscoRouteHdrPacket.hdr (rest.length / 9) rest :=
    Wire.records_encAll_append DiscoRouteHdrPacket.hdr routes rest (by decide)
  rw [hall] at hf
  refine ⟨fun ⟨q, rs', hq, _, _, _, _, hrs', hf'⟩ => ?_, fun h => ?_⟩
  · rw [hp] at hq
    cases hq
    have he : rs' = rs := Option.some.inj (hrs'.symm.trans hrs)
    rw [← hf', he, hf]
  · exact ⟨p, rs, hp, h1, h2, h3, h4, hrs, by rw [hf, h]⟩

/-- A packet round-trips in a buffer with room for its routes and none for one more. -/
theorem roundTripsIn_iff {size : Nat} {id ip : U32} {mac : MacAddr} {op : U8} {routes : List (U32 × U32 × U8)} :
    RoundTripsIn size id ip mac op routes ↔
      15 + 9 * routes.length ≤ size ∧ size < 15 + 9 * routes.length + 9 := by
  have hextra : ∀ n : Nat, routes = routes ++ Wire.records DiscoRouteHdrPacket.hdr (n / 9) (List.replicate n 0) ↔ n < 9 := by
    intro n
    rw [List.self_eq_append_right, ← List.length_eq_zero_iff, Wire.length_records]
    omega
  refine ⟨fun ⟨p, hp, hparse⟩ => ?_, fun ⟨hle, hlt⟩ => ?_⟩
  · obtain ⟨hle, hb⟩ := pack_eq_some.mp hp
    rw [hb, parses_append, List.length_replicate, hextra] at hparse
    omega
  · have hl : 15 ≤ (DiscoHdrPacket.hdr.enc (id, ip, mac, op) ++ (Wire.encAll DiscoRouteHdrPacket.hdr routes ++
        List.replicate (size - (15 + 9 * routes.length)) 0)).length := by
      rw [List.length_append, DiscoHdrPacket.hdr.enc_length]
      exact Nat.le_add_right _ _
    obtain ⟨p, -, hb, -⟩ := Packet.exists_new hl
    refine ⟨p, pack_eq_some.mpr ⟨hle, hb⟩, ?_⟩
    rw [hb, parses_append, List.length_replicate, hextra]
    omega

/-- The nine zero bytes after a hello's header are a route. -/
theorem hello_routes (id : U32) (i : Interface) : ∃ sent eth p rs, discoHello id i = some sent ∧
    EthernetPacket.new sent.msg = some eth ∧ DiscoHdrPacket.new eth.payload = some p ∧ p.routeHdrs = some rs ∧
    rs.map (·.fields) = [(0, 0, 0)] := by
  obtain ⟨eth, he, -, hp⟩ := EthernetPacket.new_enc .broadcast i.mac 0x0060
    (DiscoHdrPacket.hdr.enc (id, i.ip.toU32, MacAddr.zero, 0) ++ List.replicate 9 0)
  obtain ⟨p, rs, hp', -, -, -, -, hrs, hf⟩ :=
    (@parses_append id i.ip.toU32 .zero 0 [] _ (List.replicate 9 0)).mpr rfl
  refine ⟨_, eth, p, rs, UserSpace.discoHello_eq id i, he, by rw [hp]; exact hp', hrs, ?_⟩
  rw [hf]
  rfl

/-! ## The crate's own sizes -/

/-- `DiscoHdr::LEN` leaves no room for the last two bytes. -/
theorem not_roundTrips (id ip : U32) (mac : MacAddr) (op : U8) (routes : List (U32 × U32 × U8)) :
    ¬ RoundTrips id ip mac op routes := by
  intro h
  have hle := (roundTripsIn_iff.mp h).1
  have hsize : DiscoHdr.len + routes.length * DiscoRouteHdr.len = 13 + routes.length * 9 := rfl
  omega

theorem not_helloHasNoRoutes (id : U32) (i : Interface) : ¬ HelloHasNoRoutes id i := by
  intro ⟨sent, eth, p, h1, h2, h3, h4⟩
  obtain ⟨sent', eth', p', rs, h1', h2', h3', h4', hf⟩ := hello_routes id i
  cases h1.symm.trans h1'
  cases h2.symm.trans h2'
  cases h3.symm.trans h3'
  cases h4.symm.trans h4'
  cases hf

/-- No packet of the crate's own size round-trips, and no hello parses to no routes. -/
theorem never_round_trips (id ip : U32) (mac : MacAddr) (op : U8) (routes : List (U32 × U32 × U8)) (i : Interface) :
    ¬ RoundTrips id ip mac op routes ∧ ¬ HelloHasNoRoutes id i :=
  ⟨not_roundTrips id ip mac op routes, not_helloHasNoRoutes id i⟩

/-- One route: the copy of the payload is out of range. No route: `new` finds the buffer
    too short. -/
theorem one_route_does_not_fit :
    ¬ RoundTrips 7 0x0a000101 ⟨2, 0, 0, 0, 0, 1⟩ 1 [(0x0a010000, 1, 16)] ∧
    pack (DiscoHdr.len + 1 * DiscoRouteHdr.len) 7 0x0a000101 ⟨2, 0, 0, 0, 0, 1⟩ 1 [(0x0a010000, 1, 16)] = none ∧
    DiscoHdrPacket.new (List.replicate (DiscoHdr.len + 0 * DiscoRouteHdr.len) 0) = none ∧
    ¬ HelloHasNoRoutes 7 ⟨1, ⟨10, 0, 1, 1⟩, ⟨2, 0, 0, 0, 0, 1⟩⟩ :=
  ⟨not_roundTrips _ _ _ _ _, rfl, rfl, not_helloHasNoRoutes _ _⟩

end FabricRs.Disco

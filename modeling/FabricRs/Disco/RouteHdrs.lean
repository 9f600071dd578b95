/-
  FabricRs.Disco.RouteHdrs — the route headers in a disco packet's payload (`disco-rs`).

  The payload is route headers of nine bytes, one after another, with no count: a packet's
  rendering takes as many as its length divided by nine and decodes each from a slice of
  its own. A slice out of range and a failed `unwrap` are `none`. `rpList` is how a sender
  builds the payload.

  - `routeHdrs_eq`: neither happens, whatever the bytes and however many: the loop decodes
    the payload's records.
  - `route_hdrs_lossless`: in both renderings, and written back they are the payload's
    bytes, up to the eight at most that are no whole header.
-/

import FabricRs.Lib.Records
import FabricRs.Packets

namespace FabricRs

open Wire (Bytes)

namespace Disco

/-! ## Rendering -/

/-- A route header's `Display`, the mutable packet's too. -/
def fmtRouteHdr (r : U32 × U32 × U8) : String :=
  "ip: " ++ (Ipv4Addr.ofU32 r.1).fmt ++ ", hops: " ++ toString r.2.1.toNat ++ ", prefix_len: " ++ toString r.2.2.toNat

/-- The loop's turn for index `i`, up to the line it adds. -/
def routeHdrAt (payload : Bytes) (i : Nat) : Option DiscoRouteHdrPacket := do
  let offset := i * DiscoRouteHdr.len
  let pl ← Wire.slice payload offset (offset + DiscoRouteHdr.len)
  let discoRouteHeader ← Wire.tryInto DiscoRouteHdr.len pl
  DiscoRouteHdrPacket.new discoRouteHeader

def numberOfRouteHdrs (payload : Bytes) : Nat := payload.length / 9

/-- The headers the loop decodes. -/
def routeHdrs (payload : Bytes) : Option (List DiscoRouteHdrPacket) :=
  (List.range (numberOfRouteHdrs payload)).mapM (routeHdrAt payload)

def routeHdrStr (payload : Bytes) : Option String :=
  (List.range (numberOfRouteHdrs payload)).foldlM (fun routeHdrStr i => do
    let routeHdr ← routeHdrAt payload i
    return routeHdrStr ++ "\n" ++ fmtRouteHdr routeHdr.fields) ""

/-- What is written of a header, given its routes' lines. -/
def fmtHdr (p : DiscoHdrPacket) (routeHdrStr : String) : String :=
  "id: " ++ toString p.getId.toNat ++ ", ip: " ++ (Ipv4Addr.ofU32 p.getIp).fmt ++ ", op: " ++ toString p.getOp.toNat ++
    ", rh:\n" ++ routeHdrStr

end Disco

namespace DiscoHdrPacket

def routeHdrs (p : DiscoHdrPacket) : Option (List DiscoRouteHdrPacket) := Disco.routeHdrs p.payload

/-- `Display`; `none` where it panics. -/
def fmt (p : DiscoHdrPacket) : Option String := (Disco.routeHdrStr p.payload).map (Disco.fmtHdr p)

end DiscoHdrPacket

namespace MutableDiscoHdrPacket

def routeHdrs (p : MutableDiscoHdrPacket) : Option (List DiscoRouteHdrPacket) := Disco.routeHdrs p.payload

def fmt (p : MutableDiscoHdrPacket) : Option String := (Disco.routeHdrStr p.payload).map (Disco.fmtHdr p)

end MutableDiscoHdrPacket

namespace Disco

/-! ## Writing -/

/-- A route packet in a buffer of its own. -/
def routePacket (r : U32 × U32 × U8) : Option DiscoRouteHdrPacket := do
  let routePacketBuffer := List.replicate DiscoRouteHdr.len 0
  let rp ← DiscoRouteHdrPacket.new routePacketBuffer
  let rp := rp.setIp r.1
  let rp := rp.setHops r.2.1
  let rp := rp.setPrefixLen r.2.2
  return rp

/-- The route packets' bytes, concatenated. -/
def rpList (routes : List (U32 × U32 × U8)) : Option Bytes :=
  routes.foldlM (fun rpList r => do
    let rp ← routePacket r
    return rpList ++ rp.packet) []

theorem routePacket_eq (r : U32 × U32 × U8) :
    ∃ rp, routePacket r = some rp ∧ rp.packet = DiscoRouteHdrPacket.hdr.enc r :=
  ⟨_, rfl, rfl⟩

theorem rpList_eq (routes : List (U32 × U32 × U8)) :
    rpList routes = some (Wire.encAll DiscoRouteHdrPacket.hdr routes) := by
  have hturn : ∀ (l : Bytes), ∀ r ∈ routes, (do let rp ← routePacket r; return l ++ rp.packet) =
      some (l ++ DiscoRouteHdrPacket.hdr.enc r) := by
    intro l r _
    obtain ⟨rp, h, hp⟩ := routePacket_eq r
    rw [h, ← hp]
    rfl
  have hfold : ∀ l : Bytes, routes.foldl (fun l r => l ++ DiscoRouteHdrPacket.hdr.enc r) l =
      l ++ Wire.encAll DiscoRouteHdrPacket.hdr routes := by
    induction routes with
    | nil => intro l; exact (List.append_nil l).symm
    | cons r routes ih =>
      intro l
      rw [List.foldl_cons, ih fun l r hr => hturn l r (List.mem_cons_of_mem _ hr), Wire.encAll_cons, List.append_assoc]
  unfold rpList
  rw [Wire.foldlM_eq_foldl hturn, hfold, List.nil_append]

/-! ## The loop -/

/-- The route header at index `i`. -/
def routeHdr (payload : Bytes) (i : Nat) : U32 × U32 × U8 := Wire.record DiscoRouteHdrPacket.hdr payload i

/-- Below the number of headers the slice is in range, it has the nine bytes of the array
    it becomes, and those are enough for a packet. -/
theorem routeHdrAt_eq {payload : Bytes} {i : Nat} (h : i < numberOfRouteHdrs payload) :
    ∃ r, routeHdrAt payload i = some r ∧ r.fields = routeHdr payload i := by
  have hfit : (i + 1) * 9 ≤ payload.length := Wire.record_fits h
  have hlen : ((payload.drop (i * 9)).take 9).length = 9 := by
    rw [List.length_take, List.length_drop]
    omega
  refine ⟨⟨(payload.drop (i * 9)).take 9, by rw [hlen]; decide⟩, ?_, ?_⟩
  · unfold routeHdrAt
    show (Wire.slice payload (i * 9) (i * 9 + 9)).bind _ = _
    rw [Wire.slice_record hfit, Option.bind_some]
    show (Wire.tryInto 9 _).bind _ = _
    rw [Wire.tryInto, if_pos hlen, Option.bind_some]
    exact Wire.Packet.new_eq_some.mpr rfl
  · have henc := DiscoRouteHdrPacket.hdr.enc_dec _ hlen
    rw [← List.append_nil (DiscoRouteHdrPacket.hdr.enc _)] at henc
    exact DiscoRouteHdrPacket.fields_eq henc.symm

/-- The loop decodes the payload's records, all of them. -/
theorem routeHdrs_eq (payload : Bytes) : ∃ rs, routeHdrs payload = some rs ∧
    rs.map (·.fields) = Wire.records DiscoRouteHdrPacket.hdr (numberOfRouteHdrs payload) payload :=
  Wire.mapM_map fun _ hi => routeHdrAt_eq (List.mem_range.mp hi)

/-- The lines of the route headers `rs`. -/
def fmtRouteHdrs (rs : List (U32 × U32 × U8)) : String := rs.foldl (fun str r => str ++ "\n" ++ fmtRouteHdr r) ""

/-- The rendering shows the same headers. -/
theorem routeHdrStr_eq (payload : Bytes) : routeHdrStr payload =
    some (fmtRouteHdrs (Wire.records DiscoRouteHdrPacket.hdr (numberOfRouteHdrs payload) payload)) := by
  have hturn : ∀ (str : String), ∀ i ∈ List.range (numberOfRouteHdrs payload),
      (do let r ← routeHdrAt payload i; return str ++ "\n" ++ fmtRouteHdr r.fields) =
        some (str ++ "\n" ++ fmtRouteHdr (routeHdr payload i)) := by
    intro str i hi
    obtain ⟨r, h, hr⟩ := routeHdrAt_eq (List.mem_range.mp hi)
    rw [h, ← hr]
    rfl
  unfold routeHdrStr fmtRouteHdrs Wire.records
  rw [Wire.foldlM_eq_foldl hturn, List.foldl_map]
  rfl

/-- Written back, the records are the payload without its last bytes that are no header. -/
theorem rpList_records (payload : Bytes) :
    rpList (Wire.records DiscoRouteHdrPacket.hdr (numberOfRouteHdrs payload) payload) =
      some (payload.take (9 * (payload.length / 9))) := by
  have hfit : numberOfRouteHdrs payload * 9 ≤ payload.length := Nat.div_mul_le_self _ _
  rw [rpList_eq, Wire.encAll_records DiscoRouteHdrPacket.hdr hfit, Nat.mul_comm]
  rfl

/-- Whatever buffer either packet accepts: both loops run to their end and decode the same
    headers, both renderings show them, and written back they are the payload's bytes. -/
theorem route_hdrs_lossless (buf : Bytes) (h : (DiscoHdrPacket.new buf).isSome ∨ (MutableDiscoHdrPacket.new buf).isSome) :
    ∃ (p : DiscoHdrPacket) (q : MutableDiscoHdrPacket) (rs : List DiscoRouteHdrPacket),
      DiscoHdrPacket.new buf = some p ∧ MutableDiscoHdrPacket.new buf = some q ∧
      p.routeHdrs = some rs ∧ q.routeHdrs = some rs ∧
      p.fmt = some (fmtHdr p (fmtRouteHdrs (rs.map (·.fields)))) ∧
      q.fmt = some (fmtHdr q (fmtRouteHdrs (rs.map (·.fields)))) ∧
      p.payload = buf.drop 15 ∧ q.payload = buf.drop 15 ∧
      rpList (rs.map (·.fields)) = some ((buf.drop 15).take (9 * ((buf.drop 15).length / 9))) := by
  have hl : 15 ≤ buf.length := h.elim Wire.Packet.new_isSome.mp Wire.Packet.new_isSome.mp
  obtain ⟨rs, hrs, hf⟩ := routeHdrs_eq (buf.drop 15)
  have hnew : DiscoHdrPacket.new buf = some ⟨buf, hl⟩ := Wire.Packet.new_eq_some.mpr rfl
  have hfmt : DiscoHdrPacket.fmt ⟨buf, hl⟩ = some (fmtHdr ⟨buf, hl⟩ (fmtRouteHdrs (rs.map (·.fields)))) := by
    unfold DiscoHdrPacket.fmt
    show (routeHdrStr (buf.drop 15)).map _ = _
    rw [routeHdrStr_eq, hf]
    rfl
  exact ⟨⟨buf, hl⟩, ⟨buf, hl⟩, rs, hnew, hnew, hrs, hrs, hfmt, hfmt, rfl, rfl, by rw [hf]; exact rpList_records _⟩

/-- A header, one route header, and three bytes of padding. -/
theorem route_hdrs_lossless_padded : ∃ rs, DiscoHdrPacket.routeHdrs ⟨List.replicate 27 1, by decide⟩ = some rs ∧
    rpList (rs.map (·.fields)) = some (List.replicate 9 1) := by
  obtain ⟨p, -, rs, hp, -, hrs, -, -, -, -, -, hb⟩ := route_hdrs_lossless (List.replicate 27 1) (Or.inl rfl)
  cases hp
  exact ⟨rs, hrs, hb⟩

end Disco

end FabricRs

/-
  FabricRs.UserSpace.Handler — what `UserSpace::receiver` makes of a frame, and what
  `disco_sender` puts in one (`fabric-rs-userspace/src/lib.rs`).

  `dispatch` is the receiver's loop up to the call of `disco_handler`; every other way
  through it (a frame too short, an ARP packet, another ethertype, an interface that is not
  configured) ends in `none` and does nothing. `Handler` is `disco_handler` between its
  awaits: it gets the neighbor, adds the interface to its own copy, adds the copy.

  `receiveAll` is what handling frames one at a time, alone, makes of the neighbor table.

  - `hello_iff`: the frames that reach the table are exactly the hellos on the wire: any
    bytes that lay out as an Ethernet header with the disco ethertype, a disco header with
    op 0, and anything after that, heard on a configured interface.
  - `entry_receiveAll`: what the table holds for an id and a MAC is what the last hello of
    that id and MAC announced.
  - `discoHello_eq`: the bytes of `disco_sender`'s hello.
-/

import FabricRs.Lib.LastWrite
import FabricRs.Packets
import FabricRs.State.Actor

namespace FabricRs.UserSpace

open State
open Wire (Bytes Packet)

/-! ## The receiver's side -/

/-- The packet and the interface a frame makes `receiver` call `disco_handler` with. -/
def dispatch (interfaces : Interfaces) (f : Frame) : Option (DiscoHdrPacket × Interface) :=
  match EthernetPacket.new f.msg with
  | none => none
  | some ethPacket =>
    if ethPacket.getEthertype = EtherTypes.arp then
      match ArpPacket.new ethPacket.payload with
      | none => none
      -- `arp_handler` returns at once
      | some _ => none
    else if ethPacket.getEthertype = 0x0060 then
      match DiscoHdrPacket.new ethPacket.payload with
      | none => none
      | some discoPacket =>
        match interfaces.get f.ifidx with
        | none => none
        | some interface => some (discoPacket, interface)
    else none

/-- The id and the interface a packet announces to `disco_handler`; `none` for any op but 0. -/
def announced (discoPacket : DiscoHdrPacket) (interface : Interface) : Option (U32 × NeighborInterface) :=
  if discoPacket.getOp = 0 then
    some (discoPacket.getId, {
      neighborIp := discoPacket.getIp
      neighborMac := discoPacket.getMac
      localIp := interface.ip.toU32
      localMac := interface.mac
      localIfidx := interface.ifidx })
  else none

/-- What a frame announces to the neighbor table. -/
def hello (interfaces : Interfaces) (f : Frame) : Option (U32 × NeighborInterface) :=
  (dispatch interfaces f).bind fun x => announced x.1 x.2

/-- `disco_handler` between its awaits. -/
inductive Handler where
  | idle
  /-- Before and in `state_client.get`. -/
  | get (id : U32) (neighborInterface : NeighborInterface)
  /-- Before and in `state_client.add`. -/
  | add (id : U32) (neighbor : Neighbor)
  | panicked
  deriving DecidableEq

namespace Handler

def start : Option (U32 × NeighborInterface) → Handler
  | none => idle
  | some (id, neighborInterface) => get id neighborInterface

/-- The command the handler is about to send. -/
def call : Handler → Option StateCommand
  | idle => none
  | get id _ => some (.get (.neighbor id))
  | add id neighbor => some (.add (.neighbor id neighbor))
  | panicked => none

/-- Once the command has returned. The types of the sources leave no other answers. -/
def ret : Handler → Option Reply → Handler
  | get id neighborInterface, some (.value (some v)) =>
    match v.intoNeighbor with
    | some neighbor => add id (neighbor.addInterface neighborInterface)
    | none => panicked
  | get id neighborInterface, some (.value none) => add id (Neighbor.new.addInterface neighborInterface)
  | add _ _, none => idle
  | _, _ => panicked

/-- A handler goes on with the neighbor it got, or a new one. -/
theorem ret_get (id : U32) (ni : NeighborInterface) (o : Option Neighbor) :
    (get id ni).ret (some (.value (o.map .neighbor))) = add id ((o.getD .new).addInterface ni) := by
  cases o <;> rfl

end Handler

/-! ## Alone, one frame at a time -/

/-- `disco_handler` with no one else at the table. -/
def hear (t : NeighborTable) (id : U32) (neighborInterface : NeighborInterface) : NeighborTable :=
  ⟨t.entries.insert id (((t.entries.lookup id).getD .new).addInterface neighborInterface)⟩

def receive (interfaces : Interfaces) (t : NeighborTable) (f : Frame) : NeighborTable :=
  match hello interfaces f with
  | none => t
  | some (id, neighborInterface) => hear t id neighborInterface

def receiveAll (interfaces : Interfaces) (fs : List Frame) : NeighborTable :=
  fs.foldl (receive interfaces) .new

/-- The interface entry at an id and a MAC. -/
def entry (t : NeighborTable) (id : U32) (mac : MacAddr) : Option NeighborInterface :=
  (t.entries.lookup id).bind fun n => n.interfaces.lookup mac

/-- What a frame does to the entry at an id and a MAC. -/
def writes (interfaces : Interfaces) (f : Frame) (k : U32 × MacAddr) : Option (Option NeighborInterface) :=
  match hello interfaces f with
  | none => none
  | some (id, ni) => if k = (id, ni.neighborMac) then some (some ni) else none

theorem receiveAll_snoc (interfaces : Interfaces) (fs : List Frame) (f : Frame) :
    receiveAll interfaces (fs ++ [f]) = receive interfaces (receiveAll interfaces fs) f := by
  simp [receiveAll]

theorem entry_hear (t : NeighborTable) (id : U32) (ni : NeighborInterface) (k : U32 × MacAddr) :
    entry (hear t id ni) k.1 k.2 = if k = (id, ni.neighborMac) then some ni else entry t k.1 k.2 := by
  obtain ⟨id', mac⟩ := k
  unfold entry hear
  rw [HashMap.lookup_insert]
  by_cases hid : id' = id
  · subst hid
    rw [if_pos rfl, Option.bind_some, Neighbor.lookup_addInterface]
    by_cases hmac : mac = ni.neighborMac
    · simp [hmac]
    · cases h : t.entries.lookup id' with
      | none => simp [hmac, Neighbor.new]
      | some n => simp [hmac]
  · simp [hid]

theorem entry_receive (interfaces : Interfaces) (t : NeighborTable) (f : Frame) (k : U32 × MacAddr) :
    entry (receive interfaces t f) k.1 k.2 = (writes interfaces f k).getD (entry t k.1 k.2) := by
  unfold receive writes
  cases h : hello interfaces f with
  | none => rfl
  | some x =>
    obtain ⟨id, ni⟩ := x
    show entry (hear t id ni) k.1 k.2 = Option.getD (if k = (id, ni.neighborMac) then some (some ni) else none) _
    rw [entry_hear]
    split <;> rfl

/-- An entry is what the last hello of its id and MAC announced. -/
theorem entry_receiveAll (interfaces : Interfaces) (fs : List Frame) (k : U32 × MacAddr) :
    entry (receiveAll interfaces fs) k.1 k.2 = LastWrite.value (writes interfaces) fs k := by
  induction fs using List.reverseRecOn with
  | nil => rfl
  | append_singleton fs f ih => rw [receiveAll_snoc, entry_receive, ih, LastWrite.value_snoc]

/-- A hello whose entry is there already changes nothing. -/
theorem hear_again {t : NeighborTable} {id : U32} {ni : NeighborInterface} (h : entry t id ni.neighborMac = some ni) :
    hear t id ni = t := by
  obtain ⟨n, hn, hm⟩ := Option.bind_eq_some_iff.mp h
  have h1 : n.interfaces.insert ni.neighborMac ni = n.interfaces := Finmap.ext_lookup fun mac => by
    rw [HashMap.lookup_insert]
    split
    · rename_i e; rw [e, hm]
    · rfl
  have h2 : n.addInterface ni = n := congrArg Neighbor.mk h1
  have h3 : t.entries.insert id n = t.entries := Finmap.ext_lookup fun id' => by
    rw [HashMap.lookup_insert]
    split
    · rename_i e; rw [e, hn]
    · rfl
  unfold hear
  rw [hn, Option.getD_some, h2, h3]

/-! ## Hellos on the wire -/

/-- `f` is a hello of `id` from the interface with address `ip` and `mac`: two MACs and the
    disco ethertype, then a disco header with op 0, then anything. -/
def IsHello (f : Frame) (id ip : U32) (mac : MacAddr) : Prop :=
  ∃ dst src rest, f.msg = EthernetPacket.hdr.enc (dst, src, 0x0060) ++ (DiscoHdrPacket.hdr.enc (id, ip, mac, 0) ++ rest)

theorem hello_of_wire {interfaces : Interfaces} {f : Frame} {id ip : U32} {mac : MacAddr} {i : Interface}
    (h : IsHello f id ip mac) (hi : interfaces.get f.ifidx = some i) :
    hello interfaces f = some (id, ⟨ip, mac, i.ip.toU32, i.mac, i.ifidx⟩) := by
  obtain ⟨dst, src, rest, hm⟩ := h
  obtain ⟨eth, he, ht, hp⟩ := EthernetPacket.new_enc dst src 0x0060 (DiscoHdrPacket.hdr.enc (id, ip, mac, 0) ++ rest)
  obtain ⟨d, hd, h1, h2, h3, h4⟩ := DiscoHdrPacket.new_enc id ip mac 0 rest
  rw [← hm] at he
  rw [← hp] at hd
  have hne : ¬ (0x0060 : U16) = EtherTypes.arp := by decide
  have hdisp : dispatch interfaces f = some (d, i) := by
    unfold dispatch
    simp only [he, ht, if_neg hne, if_true, hd, hi]
  unfold hello announced
  rw [hdisp, Option.bind_some, if_pos h4, h1, h2, h3]

/-- What reaches the neighbor table is exactly the hellos heard on configured interfaces. -/
theorem hello_iff {interfaces : Interfaces} {f : Frame} {id : U32} {ni : NeighborInterface} :
    hello interfaces f = some (id, ni) ↔
      ∃ ip mac i, IsHello f id ip mac ∧ interfaces.get f.ifidx = some i ∧ ni = ⟨ip, mac, i.ip.toU32, i.mac, i.ifidx⟩ := by
  refine ⟨fun h => ?_, fun ⟨ip, mac, i, hw, hi, hn⟩ => ?_⟩
  · obtain ⟨⟨d, i⟩, hd, ha⟩ := Option.bind_eq_some_iff.mp h
    unfold announced at ha
    split at ha
    · rename_i hop
      cases ha
      unfold dispatch at hd
      cases he : EthernetPacket.new f.msg with
      | none => simp [he] at hd
      | some eth =>
        simp only [he] at hd
        split at hd
        · split at hd <;> cases hd
        · split at hd
          · rename_i ht
            cases hd' : DiscoHdrPacket.new eth.payload with
            | none => simp [hd'] at hd
            | some d' =>
              cases hi : interfaces.get f.ifidx with
              | none => simp [hd', hi] at hd
              | some i' =>
                simp only [hd', hi, Option.some.injEq, Prod.mk.injEq] at hd
                obtain ⟨rfl, rfl⟩ := hd
                refine ⟨d'.getIp, d'.getMac, i', ⟨eth.getDestination, eth.getSource, d'.payload, ?_⟩, rfl, rfl⟩
                have h1 := EthernetPacket.new_hdr he
                have h2 := DiscoHdrPacket.new_hdr hd'
                rw [ht] at h1
                rw [hop] at h2
                rw [← h2]
                exact h1
          · cases hd
    · cases ha
  · rw [hello_of_wire hw hi, hn]

/-- A hello that fills in its MAC. -/
def helloFrame (ifidx id ip : U32) (mac : MacAddr) : Frame :=
  ⟨ifidx, EthernetPacket.hdr.enc (.broadcast, mac, 0x0060) ++ (DiscoHdrPacket.hdr.enc (id, ip, mac, 0) ++ [])⟩

theorem isHello_helloFrame (ifidx id ip : U32) (mac : MacAddr) : IsHello (helloFrame ifidx id ip mac) id ip mac :=
  ⟨_, _, _, rfl⟩

/-! ## The sender's side -/

/-- The frame `disco_sender` sends on an interface; `none` where an `unwrap` or the copy of
    the payload would panic. -/
def discoHello (id : U32) (interface : Interface) : Option Frame := do
  let ethernetBuffer := List.replicate (14 + 24) 0
  let ethernetPacket ← EthernetPacket.new ethernetBuffer
  let ethernetPacket := ethernetPacket.setDestination .broadcast
  let ethernetPacket := ethernetPacket.setSource interface.mac
  let ethernetPacket := ethernetPacket.setEthertype 0x0060
  let discoBuffer := List.replicate 24 0
  let discoPacket ← DiscoHdrPacket.new discoBuffer
  let discoPacket := discoPacket.setId id
  let discoPacket := discoPacket.setIp interface.ip.toU32
  let discoPacket := discoPacket.setOp 0
  let ethernetPacket ← ethernetPacket.setPayload discoPacket.packet
  return ⟨interface.ifidx, ethernetPacket.packet⟩

/-- The bytes of a hello: no panic on the way, and the disco header's MAC left zero. -/
theorem discoHello_eq (id : U32) (i : Interface) : discoHello id i = some ⟨i.ifidx,
    EthernetPacket.hdr.enc (.broadcast, i.mac, 0x0060) ++
      (DiscoHdrPacket.hdr.enc (id, i.ip.toU32, MacAddr.zero, 0) ++ List.replicate 9 0)⟩ := by
  rfl

theorem discoHello_isHello (id : U32) (i : Interface) :
    ∃ sent, discoHello id i = some sent ∧ sent.ifidx = i.ifidx ∧ IsHello sent id i.ip.toU32 MacAddr.zero :=
  ⟨_, discoHello_eq id i, rfl, _, _, _, rfl⟩

end FabricRs.UserSpace

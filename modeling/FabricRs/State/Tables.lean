/-
  FabricRs.State.Tables — the three tables behind the State actor (`state/table/`).

  The neighbor and the route table are hash maps; the forwarding table is the kernel's
  LPM trie behind aya's `LpmTrie`, shared with the XDP program. `Table` is the sources'
  trait: `lists` says which lists `list` may return (a store iterates in an order of its
  own). A trie key is a length and a `u32` kept in native memory order, so the kernel
  reads the bits of a little-endian word byte by byte from the low end (`nativeBit`).
-/

import FabricRs.Basic
import FabricRs.Lib.Lpm

namespace FabricRs.State

/-- `trait Table<K, V>`. -/
class Table (T : Type) (K V : outParam Type) where
  add : T → K → V → T
  get : T → K → Option V
  remove : T → K → T
  lists : T → List (K × V) → Prop

inductive TableType where
  | neighborTable
  | routeTable
  | forwardingTable
  deriving DecidableEq, Repr

/-! ## The neighbor table -/

structure NeighborInterface where
  neighborIp : U32
  neighborMac : MacAddr
  localIp : U32
  localMac : MacAddr
  localIfidx : U32
  deriving DecidableEq, Repr

structure Neighbor where
  interfaces : HashMap MacAddr NeighborInterface
  deriving DecidableEq

def Neighbor.new : Neighbor := ⟨∅⟩

def Neighbor.addInterface (n : Neighbor) (i : NeighborInterface) : Neighbor := ⟨n.interfaces.insert i.neighborMac i⟩

theorem Neighbor.lookup_addInterface (n : Neighbor) (i : NeighborInterface) (mac : MacAddr) :
    (n.addInterface i).interfaces.lookup mac = if mac = i.neighborMac then some i else n.interfaces.lookup mac :=
  HashMap.lookup_insert _ _ _ _

structure NeighborTable where
  entries : HashMap U32 Neighbor
  deriving DecidableEq

def NeighborTable.new : NeighborTable := ⟨∅⟩

structure NeighborTableKey where
  id : U32

structure NeighborTableValue where
  neighbor : Neighbor

instance : Table NeighborTable NeighborTableKey NeighborTableValue where
  add t k v := ⟨t.entries.insert k.id v.neighbor⟩
  get t k := (t.entries.lookup k.id).map (⟨·⟩)
  remove t k := ⟨t.entries.erase k.id⟩
  lists t l := t.entries.Lists (l.map fun e => (e.1.id, e.2.neighbor))

/-! ## The route table -/

inductive RouteOrigin where
  | local
  | remote
  deriving DecidableEq, Repr

structure RouteNextHop where
  originatorId : U32
  ip : U32
  hops : U32
  ifidx : U32
  srcMac : MacAddr
  dstMac : MacAddr
  deriving DecidableEq, Repr

structure Route where
  origin : RouteOrigin
  nextHops : List RouteNextHop
  deriving DecidableEq, Repr

structure RouteTable where
  entries : HashMap (U32 × U8) Route
  deriving DecidableEq

def RouteTable.new : RouteTable := ⟨∅⟩

structure RoutingTableKey where
  prefixIp : U32
  prefixLen : U8

structure RoutingTableValue where
  route : Route

instance : Table RouteTable RoutingTableKey RoutingTableValue where
  add t k v := ⟨t.entries.insert (k.prefixIp, k.prefixLen) v.route⟩
  get t k := (t.entries.lookup (k.prefixIp, k.prefixLen)).map (⟨·⟩)
  remove t k := ⟨t.entries.erase (k.prefixIp, k.prefixLen)⟩
  lists t l := t.entries.Lists (l.map fun e => ((e.1.prefixIp, e.1.prefixLen), e.2.route))

/-! ## The forwarding table -/

/-- `fabric_rs_common::RouteNextHop`, the next hop the XDP program reads. -/
structure RNH where
  ip : U32
  ifidx : U32
  srcMac : MacAddr
  dstMac : MacAddr
  totalNextHops : U32
  deriving DecidableEq, Repr

/-- `[RNH;32]`. -/
abbrev NextHops := Vector RNH 32

/-- Bit `i` of a native (little-endian) `u32` as the kernel reads a key: byte by byte from
    the low end, the most significant bit of a byte first. -/
def nativeBit (x : U32) (i : Nat) : Bool := x.getLsbD (8 * (i / 8) + (7 - i % 8))

/-- The capacity of `ROUTINGTABLE`. -/
def maxEntries : Nat := 2048

/-- `LpmTrie<MapData, u32, [RNH;32]>`. -/
abbrev LpmTrie := Lpm.Trie nativeBit 32 maxEntries NextHops

/-- The trie of a program just loaded. -/
def noRoutes : LpmTrie := Lpm.Trie.empty

structure ForwardingTable where
  entries : LpmTrie

/-- `Key::new(prefix_len, prefix)`. -/
def lpmKey (prefixLen prefixIp : U32) : Lpm.Key U32 := ⟨prefixLen.toNat, prefixIp⟩

structure ForwadingTableKey where
  prefixIp : U32
  prefixLen : U32

structure ForwadingTableValue where
  nextHops : NextHops

/-- `insert`'s and `remove`'s results are dropped: a refused insert changes nothing. -/
instance : Table ForwardingTable ForwadingTableKey ForwadingTableValue where
  add t k v := ⟨(t.entries.insert (lpmKey k.prefixLen k.prefixIp) v.nextHops).getD t.entries⟩
  get t k := (t.entries.get (lpmKey k.prefixLen k.prefixIp)).map (⟨·⟩)
  remove t k := ⟨t.entries.remove (lpmKey k.prefixLen k.prefixIp)⟩
  lists t l := (l.map fun e => (lpmKey e.1.prefixLen e.1.prefixIp, e.2.nextHops)).Perm t.entries.entries

end FabricRs.State

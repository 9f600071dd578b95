/-
  FabricRs.Basic — the machine types of the sources and the interface record.

  A `HashMap` is a finite map without an order: iterating over one yields its entries in
  some order (`HashMap.Lists`). `MacAddr` is the sources' `[u8;6]` and pnet's `MacAddr`,
  which convert into one another byte by byte. `Interfaces` is the map `main` builds: an
  interface is stored under its own index.
-/

import Mathlib.Data.Finmap
import FabricRs.Lib.Wire

namespace FabricRs

open Wire (Codec Bytes)

abbrev U8 := BitVec 8
abbrev U32 := BitVec 32

structure MacAddr where
  a : U8
  b : U8
  c : U8
  d : U8
  e : U8
  f : U8
  deriving DecidableEq, Repr

def MacAddr.broadcast : MacAddr := ⟨0xff, 0xff, 0xff, 0xff, 0xff, 0xff⟩

def MacAddr.zero : MacAddr := ⟨0, 0, 0, 0, 0, 0⟩

/-- Six bytes, in order. -/
def MacAddr.codec : Codec MacAddr where
  width := 6
  enc m := [m.a, m.b, m.c, m.d, m.e, m.f]
  dec l := ⟨l.getD 0 0, l.getD 1 0, l.getD 2 0, l.getD 3 0, l.getD 4 0, l.getD 5 0⟩
  enc_length _ := rfl
  dec_enc _ := rfl
  enc_dec l h := by
    match l, h with
    | [_, _, _, _, _, _], _ => rfl

structure Ipv4Addr where
  a : U8
  b : U8
  c : U8
  d : U8
  deriving DecidableEq, Repr

/-- `u32::from_be_bytes(ip.octets())`, which is also `u32::from(ip)`. -/
def Ipv4Addr.toU32 (ip : Ipv4Addr) : U32 := Wire.u32be.dec [ip.a, ip.b, ip.c, ip.d]

/-- `Ipv4Addr::from(u32)`. -/
def Ipv4Addr.ofU32 (x : U32) : Ipv4Addr := ⟨Wire.octet x 3, Wire.octet x 2, Wire.octet x 1, Wire.octet x 0⟩

/-- `Display`: the octets in decimal. -/
def Ipv4Addr.fmt (ip : Ipv4Addr) : String :=
  toString ip.a.toNat ++ "." ++ toString ip.b.toNat ++ "." ++ toString ip.c.toNat ++ "." ++ toString ip.d.toNat

structure Interface where
  ifidx : U32
  ip : Ipv4Addr
  mac : MacAddr
  deriving DecidableEq, Repr

/-- `(ifidx, msg)`, as the channels between the tasks carry it. -/
structure Frame where
  ifidx : U32
  msg : Bytes
  deriving DecidableEq

/-! ## Hash maps -/

abbrev HashMap (K V : Type) : Type := Finmap fun _ : K => V

namespace HashMap

variable {K V : Type}

/-- `l` is the map's entries in some order. -/
def Lists (m : HashMap K V) (l : List (K × V)) : Prop := m.entries.map (fun e => (e.1, e.2)) = (l : Multiset (K × V))

theorem exists_lists (m : HashMap K V) : ∃ l, m.Lists l := by
  unfold Lists
  exact ⟨_, (Multiset.coe_toList _).symm⟩

/-- Each key is listed once. -/
theorem Lists.nodup {m : HashMap K V} {l : List (K × V)} (h : m.Lists l) : (l.map (·.1)).Nodup := by
  have hk : (l.map (·.1) : Multiset K) = m.entries.keys := by
    rw [← Multiset.map_coe, ← h, Multiset.map_map]
    rfl
  rw [← Multiset.coe_nodup, hk]
  exact Multiset.nodup_keys.mpr m.nodupKeys

variable [DecidableEq K]

theorem Lists.mem {m : HashMap K V} {l : List (K × V)} (h : m.Lists l) {k : K} {v : V} :
    (k, v) ∈ l ↔ m.lookup k = some v := by
  rw [← Multiset.mem_coe, ← h, Multiset.mem_map, Finmap.lookup_eq_some_iff]
  refine ⟨fun ⟨e, he, hk⟩ => ?_, fun he => ?_⟩
  · cases hk
    exact he
  · exact ⟨_, he, rfl⟩

/-- A list tells the map. -/
theorem Lists.eq {m m' : HashMap K V} {l : List (K × V)} (h : m.Lists l) (h' : m'.Lists l) : m = m' := by
  refine Finmap.ext_lookup fun k => Option.ext fun v => ?_
  rw [← h.mem, ← h'.mem]

theorem lookup_insert (m : HashMap K V) (k k' : K) (v : V) :
    Finmap.lookup k' (m.insert k v) = if k' = k then some v else m.lookup k' := by
  by_cases h : k' = k
  · subst h; simp
  · simp [h]

theorem lookup_erase (m : HashMap K V) (k k' : K) :
    Finmap.lookup k' (m.erase k) = if k' = k then none else m.lookup k' := by
  by_cases h : k' = k
  · subst h; simp
  · simp [h]

end HashMap

/-- `HashMap<u32, Interface>` as `main` fills it: each interface under its own index. -/
structure Interfaces where
  map : HashMap U32 Interface
  keyed : ∀ k i, map.lookup k = some i → i.ifidx = k

namespace Interfaces

def get (ifs : Interfaces) (ifidx : U32) : Option Interface := ifs.map.lookup ifidx

def empty : Interfaces := ⟨∅, fun k i h => by simp at h⟩

def insert (ifs : Interfaces) (i : Interface) : Interfaces where
  map := ifs.map.insert i.ifidx i
  keyed k j h := by
    rw [HashMap.lookup_insert] at h
    by_cases e : k = i.ifidx
    · rw [if_pos e] at h
      cases h
      exact e.symm
    · rw [if_neg e] at h
      exact ifs.keyed k j h

theorem get_insert (ifs : Interfaces) (i : Interface) (k : U32) :
    (ifs.insert i).get k = if k = i.ifidx then some i else ifs.get k :=
  HashMap.lookup_insert _ _ _ _

end Interfaces

end FabricRs

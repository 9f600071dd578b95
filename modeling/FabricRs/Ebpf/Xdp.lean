/-
  FabricRs.Ebpf.Xdp — the XDP program (`fabric-rs-ebpf/src/main.rs`).

  A packet is its bytes; `ptrAt` is the bounds check in front of every access. `parse` is
  `try_fabric_rs` up to the lookup in `ROUTINGTABLE`, whose trie is the one user space
  writes. The target is little-endian: a `u32` field read through a pointer has its bytes
  in reverse, and `u32::from_be` puts them right.

  - `parse_ipv4`: an IPv4 packet is looked up under its destination address, all 32 bits.
  - `tryFabricRs_redirect`: a packet with a next hop leaves with that hop's MACs, and is
    otherwise as it came.
-/

import FabricRs.State.Tables

namespace FabricRs.Ebpf

open State
open Wire (Bytes)

namespace XdpAction

def aborted : U32 := 0
def pass : U32 := 2
def redirect : U32 := 4

end XdpAction

/-- `ptr_at`, `ptr_at_mut`: the `len` bytes at `offset`, if they lie in the packet. -/
def ptrAt (ctx : Bytes) (offset len : Nat) : Option Bytes :=
  if offset + len > ctx.length then none else some ((ctx.drop offset).take len)

/-- Ethertypes, as the two bytes of the header in network order. -/
def EtherType.loop : BitVec 16 := 0x0060
def EtherType.ipv4 : BitVec 16 := 0x0800

/-- `u32::from_be` of a word that was read from memory. -/
def fromBe (x : U32) : U32 := Wire.u32be.dec (Wire.u32le.enc x)

/-- What `try_fabric_rs` makes of a packet before it looks it up. -/
inductive Parsed where
  | aborted
  | pass
  | lookup (key : Lpm.Key U32)
  deriving DecidableEq

def parse (ctx : Bytes) : Parsed :=
  match ptrAt ctx 0 14 with
  | none => .aborted
  | some ethHdr =>
    let etherType := Wire.get Wire.u16be 12 ethHdr
    if etherType = EtherType.loop then .pass
    else if etherType ≠ EtherType.ipv4 then .pass
    else
      match ptrAt ctx 14 20 with
      | none => .aborted
      | some ipv4Hdr =>
        let dstIp := Wire.get Wire.u32le 16 ipv4Hdr
        .lookup (lpmKey 32 (fromBe dstIp))

/-- `try_fabric_rs`: the verdict, and the packet as it leaves it. `bpfRedirect` is the
    helper's answer for an interface index. -/
def tryFabricRs (routingTable : LpmTrie) (bpfRedirect : U32 → U32) (ctx : Bytes) : Except U32 U32 × Bytes :=
  match parse ctx with
  | .aborted => (.error XdpAction.aborted, ctx)
  | .pass => (.ok XdpAction.pass, ctx)
  | .lookup key =>
    match routingTable.get key with
    | none => (.ok XdpAction.pass, ctx)
    | some routeNextHops =>
      let nh := routeNextHops[0]
      if nh.totalNextHops > 0 then
        let ctx := Wire.put MacAddr.codec 6 nh.dstMac ctx
        let ctx := Wire.put MacAddr.codec 0 nh.srcMac ctx
        (.ok (bpfRedirect nh.ifidx), ctx)
      else (.ok XdpAction.pass, ctx)

/-- The lookup `try_fabric_rs` makes: `none` if it makes none, else what it finds. -/
def routeLookup (routingTable : LpmTrie) (ctx : Bytes) : Option (Option NextHops) :=
  match parse ctx with
  | .lookup key => some (routingTable.get key)
  | _ => none

/-- An IPv4 packet with destination address `d`. -/
structure IsIpv4 (ctx : Bytes) (d : U32) : Prop where
  fits : 34 ≤ ctx.length
  ethertype : Wire.get Wire.u16be 12 ctx = 0x0800
  dst : Wire.get Wire.u32be 30 ctx = d

/-- A field of a header is the field of the packet at the header's offset. -/
theorem get_ptrAt {α : Type} {c : Wire.Codec α} {ctx hdr : Bytes} {offset len i : Nat} (h : ptrAt ctx offset len = some hdr)
    (hi : i + c.width ≤ len) : Wire.get c i hdr = Wire.get c (offset + i) ctx := by
  unfold ptrAt at h
  split at h
  · cases h
  · cases h
    unfold Wire.get
    rw [List.drop_take, List.take_take, List.drop_drop, Nat.min_eq_left (by omega)]

theorem ptrAt_some (ctx : Bytes) (offset len : Nat) (h : offset + len ≤ ctx.length) :
    ∃ hdr, ptrAt ctx offset len = some hdr :=
  ⟨_, if_neg (by omega)⟩

/-- The destination address, right again. -/
theorem fromBe_get (ctx : Bytes) (i : Nat) (h : i + 4 ≤ ctx.length) :
    fromBe (Wire.get Wire.u32le i ctx) = Wire.get Wire.u32be i ctx := by
  have hl : ((ctx.drop i).take 4).length = Wire.u32le.width := by
    rw [List.length_take, List.length_drop]
    show min 4 _ = 4
    omega
  unfold fromBe Wire.get
  exact congrArg Wire.u32be.dec (Wire.u32le.enc_dec _ hl)

/-- The two checks and the tests between them. -/
theorem parse_eq (ctx : Bytes) : parse ctx =
    if ctx.length < 14 then .aborted
    else if Wire.get Wire.u16be 12 ctx ≠ EtherType.ipv4 then .pass
    else if ctx.length < 34 then .aborted
    else .lookup (lpmKey 32 (Wire.get Wire.u32be 30 ctx)) := by
  by_cases h14 : ctx.length < 14
  · have he : ptrAt ctx 0 14 = none := if_pos (by omega)
    unfold parse
    rw [if_pos h14, he]
  · obtain ⟨eth, he⟩ := ptrAt_some ctx 0 14 (by omega)
    have ht : Wire.get Wire.u16be 12 eth = Wire.get Wire.u16be 12 ctx := by
      rw [get_ptrAt he (by decide), Nat.zero_add]
    unfold parse
    rw [if_neg h14, he]
    simp only [ht]
    by_cases hip : Wire.get Wire.u16be 12 ctx = EtherType.ipv4
    · have hloop : ¬ Wire.get Wire.u16be 12 ctx = EtherType.loop := by rw [hip]; decide
      rw [if_neg hloop, if_neg (not_not_intro hip), if_neg (not_not_intro hip)]
      by_cases h34 : ctx.length < 34
      · have hi : ptrAt ctx 14 20 = none := if_pos (by omega)
        rw [if_pos h34, hi]
      · obtain ⟨ip, hi⟩ := ptrAt_some ctx 14 20 (by omega)
        have hd : fromBe (Wire.get Wire.u32le 16 ip) = Wire.get Wire.u32be 30 ctx := by
          rw [get_ptrAt hi (by decide), fromBe_get _ _ (by omega)]
        rw [if_neg h34, hi]
        simp only [hd]
    · rw [if_pos hip, if_pos hip]
      split <;> rfl

theorem parse_ipv4 {ctx : Bytes} {d : U32} (h : IsIpv4 ctx d) : parse ctx = .lookup (lpmKey 32 d) := by
  have hfits := h.fits
  have hip : Wire.get Wire.u16be 12 ctx = EtherType.ipv4 := h.ethertype
  rw [parse_eq, if_neg (by omega), if_neg (not_not_intro hip), if_neg (by omega), h.dst]

/-! ## The packet redirected -/

/-- Only a packet with both headers is looked up. -/
theorem length_of_lookup {ctx : Bytes} {key : Lpm.Key U32} (h : parse ctx = .lookup key) : 34 ≤ ctx.length := by
  rw [parse_eq] at h
  by_cases h34 : ctx.length < 34
  · rw [if_pos h34] at h
    split at h
    · cases h
    · split at h <;> cases h
  · omega

theorem tryFabricRs_redirect {routingTable : LpmTrie} {bpfRedirect : U32 → U32} {ctx : Bytes} {key : Lpm.Key U32}
    {hops : NextHops} (hp : parse ctx = .lookup key) (hget : routingTable.get key = some hops)
    (hn : hops[0].totalNextHops > 0) : ∃ out,
      tryFabricRs routingTable bpfRedirect ctx = (.ok (bpfRedirect hops[0].ifidx), out) ∧ out.length = ctx.length ∧
      Wire.get MacAddr.codec 0 out = hops[0].srcMac ∧ Wire.get MacAddr.codec 6 out = hops[0].dstMac ∧
      out.drop 12 = ctx.drop 12 := by
  have hl := length_of_lookup hp
  have hw : MacAddr.codec.width = 6 := rfl
  have h1 : (Wire.put MacAddr.codec 6 hops[0].dstMac ctx).length = ctx.length := Wire.length_put (by omega)
  have h2 : (Wire.put MacAddr.codec 0 hops[0].srcMac (Wire.put MacAddr.codec 6 hops[0].dstMac ctx)).length = ctx.length := by
    rw [Wire.length_put (by omega), h1]
  refine ⟨_, by unfold tryFabricRs; simp only [hp, hget, if_pos hn], h2, Wire.get_put (by omega), ?_, ?_⟩
  · rw [Wire.get_put_ne (by omega) (by omega), Wire.get_put (by omega)]
  · have henc : ∀ m : MacAddr, (MacAddr.codec.enc m).length = 6 := MacAddr.codec.enc_length
    unfold Wire.put at h1 ⊢
    rw [Wire.drop_splice (by omega) (by rw [henc]; decide), Wire.drop_splice (by omega) (by rw [henc])]

end FabricRs.Ebpf

/-
  FabricRs.Fabric.Paths — the ways of a frame that the nodes' XDP programs forward.

  `routes n` is the trie of the node `n`, whoever filled it; `wire n k m` says that what
  `n` sends on its interface `k` comes in at `m`, on an interface with the program. A frame
  goes on where the program's run on it answers `XDP_REDIRECT` (`Hop`): on the interface of
  the one redirect it asked for, as the run has left it.

  Where it goes to depends on its destination address and the routes only (`Next`), and the
  program leaves all behind the MACs as it is. It does not count down the time to live, so
  nothing stops a frame whose routes lead in a circle.

  - `hop_iff`: a hop of a packet is an edge of the routing graph of its destination.
  - `hops_keep`: though the routes change on the way, a frame keeps all but its MACs.
  - `circulates_iff`: a packet is forwarded for ever exactly if a cycle can be reached, and
    otherwise fewer times than there are nodes.
  - `hello_passes`: no hello is forwarded, whatever the routes.
-/

import FabricRs.Ebpf.Access
import FabricRs.Ebpf.Lookup
import FabricRs.Lib.Walks
import FabricRs.UserSpace.Handler

namespace FabricRs.Fabric

open Ebpf Ebpf.Access State
open Lts (Run)
open Memory (bind_run)
open Relation (ReflTransGen)
open Walks (Looped walk_looped run_iff_looped run_of_looped)
open Wire (Bytes)

section

variable {N : Type} (routes : N → LpmTrie) (answer : N → U32 → U64 → U64) (wire : N → U32 → N → Prop)

/-- A frame in at a node goes out on its interface `k` and in at the next. -/
inductive Hop : U32 → N × Bytes → N × Bytes → Prop
  | mk (n m : N) (base : Nat) (frame out : Bytes) (k : U32) (flags : U64) :
      (fabricRs (routes n) (answer n)).run (⟨base, frame⟩, []) =
        some (XdpAction.redirect, (⟨base, out⟩, [(k, flags)])) →
      wire n k m → Hop k (n, frame) (m, out)

/-- At `n` packets to `d` go by `nh` to `m`. -/
structure Via (d : U32) (nh : RNH) (n m : N) : Prop where
  lookup : nextHop (routes n) d = some nh
  sent : (answer n nh.ifidx 0).setWidth 32 = XdpAction.redirect
  wired : wire n nh.ifidx m

/-- The routing graph of an address. -/
def Next (d : U32) (n m : N) : Prop := ∃ nh, Via routes answer wire d nh n m

end

variable {N : Type} {routes : N → LpmTrie} {answer : N → U32 → U64 → U64} {wire : N → U32 → N → Prop}

/-! ## One hop -/

/-- The hops are those of IPv4 packets, along the edges of the destination's routing graph. -/
theorem hop_iff {k : U32} {n m : N} {frame out : Bytes} : Hop routes answer wire k (n, frame) (m, out) ↔
    ∃ d nh, IsIpv4 frame d ∧ Via routes answer wire d nh n m ∧ nh.ifidx = k ∧ out = rewritten nh frame := by
  constructor
  · rintro ⟨_, _, base, _, _, _, flags, hrun, hw⟩
    have ho := outcome_of_run hrun
    generalize hv : XdpAction.redirect = verdict at ho
    cases ho with
    | redirect d hops hd hget hn =>
      have hnh := nextHop_eq_some.mpr ⟨hops, hget, hn, rfl⟩
      have hl := hd.fits
      exact ⟨d, hops.get 0, hd, ⟨hnh, hv.symm, hw⟩, rfl, (rewritten_eq (by omega)).symm⟩
  · rintro ⟨d, nh, hd, hv, rfl, rfl⟩
    refine .mk n m 0 frame _ nh.ifidx 0 ?_ hv.wired
    rw [run_of_nextHop hd hv.lookup, hv.sent]

theorem Hop.keeps {k : U32} {x y : N × Bytes} (h : Hop routes answer wire k x y) :
    y.2.length = x.2.length ∧ y.2.drop 12 = x.2.drop 12 := by
  cases h with
  | mk n m base frame out k flags hrun hw =>
    obtain ⟨hl, hdrop, -⟩ := (outcome_of_run hrun).frame
    exact ⟨hl, hdrop⟩

/-- All that is looked at lies behind the MACs. -/
theorem isIpv4_of_keeps {frame out : Bytes} {d : U32} (hl : out.length = frame.length) (hdrop : out.drop 12 = frame.drop 12)
    (h : IsIpv4 frame d) : IsIpv4 out d := by
  have hget : ∀ {α : Type} (c : Wire.Codec α) (i : Nat), 12 ≤ i → Wire.get c i out = Wire.get c i frame := by
    intro α c i hi
    obtain ⟨j, rfl⟩ := Nat.exists_eq_add_of_le hi
    unfold Wire.get
    rw [← List.drop_drop, ← List.drop_drop, hdrop]
  exact ⟨hl ▸ h.fits, (hget _ 12 (by decide)).trans h.ethertype, (hget _ 30 (by decide)).trans h.dst⟩

/-! ## The whole way -/

/-- Whatever happens to the routes on the way. -/
theorem hops_keep {x y : N × Bytes} (h : ReflTransGen (fun x y => ∃ routes answer k, Hop routes answer wire k x y) x y) :
    y.2.length = x.2.length ∧ y.2.drop 12 = x.2.drop 12 := by
  induction h with
  | refl => exact ⟨rfl, rfl⟩
  | tail _ hyz ih =>
    obtain ⟨_, _, _, hyz⟩ := hyz
    exact ⟨hyz.keeps.1.trans ih.1, hyz.keeps.2.trans ih.2⟩

/-- A packet to `d` goes along the edges of the routing graph of `d`. -/
theorem hop_next {d k : U32} {x y : N × Bytes} (hd : IsIpv4 x.2 d) (h : Hop routes answer wire k x y) :
    IsIpv4 y.2 d ∧ Next routes answer wire d x.1 y.1 := by
  refine ⟨isIpv4_of_keeps h.keeps.1 h.keeps.2 hd, ?_⟩
  obtain ⟨d', nh, hd', hv, -, -⟩ := hop_iff.mp h
  rw [hd.dst.symm.trans hd'.dst]
  exact ⟨nh, hv⟩

theorem next_hop {d : U32} {x : N × Bytes} {m : N} (hd : IsIpv4 x.2 d) (h : Next routes answer wire d x.1 m) :
    ∃ k y, Hop routes answer wire k x y ∧ y.1 = m := by
  obtain ⟨nh, hv⟩ := h
  exact ⟨nh.ifidx, (m, rewritten nh x.2), hop_iff.mpr ⟨d, nh, hd, hv, rfl, rfl⟩, rfl⟩

/-- With the routes as they are, a frame that came in at `n` is forwarded for ever exactly
    if it is an IPv4 packet and a cycle of the routing graph of its destination can be
    reached from `n`. A frame that is forwarded as many times as there are nodes is
    forwarded for ever; and as it goes round, all behind its MACs stays. -/
theorem circulates_iff [Fintype N] (routes : N → LpmTrie) (answer : N → U32 → U64 → U64) (wire : N → U32 → N → Prop)
    (n : N) (frame : Bytes) :
    (Nonempty (Run (Hop routes answer wire) (n, frame)) ↔ ∃ d, IsIpv4 frame d ∧ Looped (Next routes answer wire d) n) ∧
    (∀ (p : Nat → N × Bytes) (l : Nat), p 0 = (n, frame) → (∀ i < l, ∃ k, Hop routes answer wire k (p i) (p (i + 1))) →
      l < Fintype.card N ∨ Nonempty (Run (Hop routes answer wire) (n, frame))) ∧
    ∀ (r : Run (Hop routes answer wire) (n, frame)) (i : Nat), (r.state i).2.drop 12 = frame.drop 12 := by
  have hrun : ∀ {d}, IsIpv4 frame d →
      (Nonempty (Run (Hop routes answer wire) (n, frame)) ↔ Looped (Next routes answer wire d) n) := fun {d} hd =>
    run_iff_looped (P := fun x : N × Bytes => IsIpv4 x.2 d) Prod.fst (fun _ _ _ => hop_next) (fun _ _ => next_hop) hd
  have hip : ∀ {k y}, Hop routes answer wire k (n, frame) y → ∃ d, IsIpv4 frame d := fun h => by
    obtain ⟨d, _, hd, -⟩ := hop_iff.mp h
    exact ⟨d, hd⟩
  refine ⟨⟨fun h => ?_, fun ⟨d, hd, hl⟩ => (hrun hd).mpr hl⟩, fun p l h0 hp => ?_, fun r i => ?_⟩
  · obtain ⟨r⟩ := h
    obtain ⟨d, hd⟩ := hip (r.start ▸ r.next 0)
    exact ⟨d, hd, (hrun hd).mp ⟨r⟩⟩
  · refine (Nat.lt_or_ge l (Fintype.card N)).imp_right fun hl => ?_
    have hcard : 0 < Fintype.card N := Fintype.card_pos_iff.mpr ⟨n⟩
    obtain ⟨k, hk⟩ := hp 0 (by omega)
    rw [h0] at hk
    obtain ⟨d, hd⟩ := hip hk
    have hall : ∀ i ≤ l, IsIpv4 (p i).2 d := by
      intro i hi
      induction i with
      | zero => rw [h0]; exact hd
      | succ i ih =>
        obtain ⟨k, hk⟩ := hp i (by omega)
        exact (hop_next (ih (by omega)) hk).1
    have hedge : ∀ i < l, Next routes answer wire d (p i).1 (p (i + 1)).1 := by
      intro i hi
      obtain ⟨k, hk⟩ := hp i hi
      exact (hop_next (hall i hi.le) hk).2
    have hloop := walk_looped (p := fun i => (p i).1) hedge hl
    rw [h0] at hloop
    exact (hrun hd).mpr hloop
  · exact r.inv (P := fun x => x.2.drop 12 = frame.drop 12) rfl (fun k x y hx h => h.keeps.2.trans hx) i

/-- Two nodes, each the other's default route. -/
theorem circulates_two : ∃ (routes : Bool → LpmTrie) (frame : Bytes), IsIpv4 frame 0x0a010203 ∧
    Nonempty (Run (Hop routes (fun _ _ _ => 4) fun n k m => k = 1 ∧ m = !n) (true, frame)) := by
  let t : LpmTrie := (noRoutes.insert (lpmKey 0 0) oneHop).getD noRoutes
  have hnext : ∀ n, Next (fun _ => t) (fun _ _ _ => 4) (fun n k m => k = 1 ∧ m = !n) 0x0a010203 n !n := fun n =>
    ⟨oneHop.get 0, rfl, rfl, rfl, rfl⟩
  refine ⟨fun _ => t, packetTo 0x0a010203, packetTo_ipv4 _,
    (circulates_iff _ _ _ true _).1.mpr ⟨_, packetTo_ipv4 _, true, .refl, ?_⟩⟩
  exact .tail (.single (hnext true)) (hnext false)

/-! ## Hellos -/

/-- A hello, and so each that a disco sender sends, is passed on to the readers as it came. -/
theorem hello_passes {interfaces : Interfaces} {f : Frame} {x : U32 × NeighborInterface}
    (h : UserSpace.hello interfaces f = some x) (t : LpmTrie) (ans : U32 → U64 → U64) (base : Nat) :
    (fabricRs t ans).run (⟨base, f.msg⟩, []) = some (XdpAction.pass, (⟨base, f.msg⟩, [])) := by
  obtain ⟨ip, mac, i, ⟨dst, src, rest, hm⟩, -⟩ := UserSpace.hello_iff.mp h
  have henc : ∀ m : MacAddr, (MacAddr.codec.enc m).length = 6 := MacAddr.codec.enc_length
  have hsplit : f.msg = (MacAddr.codec.enc dst ++ MacAddr.codec.enc src) ++
      (Wire.u16be.enc 0x0060 ++ (DiscoHdrPacket.hdr.enc (x.1, ip, mac, 0) ++ rest)) := by
    rw [hm]
    show (MacAddr.codec.enc dst ++ (MacAddr.codec.enc src ++ Wire.u16be.enc 0x0060)) ++ _ = _
    simp only [List.append_assoc]
  have htype : Wire.get Wire.u16be 12 f.msg = 0x0060 := by
    rw [hsplit, Wire.get_append _ _ _ _ _ (by rw [List.length_append, henc, henc])]
  have hlen : 14 ≤ f.msg.length := by
    rw [hsplit]
    simp only [List.length_append, henc, Wire.u16be.enc_length]
    show 14 ≤ 6 + 6 + (2 + _)
    omega
  unfold fabricRs
  rw [bind_run (@notIp_run t ans ⟨base, f.msg⟩ [] hlen (by rw [htype]; decide))]
  rfl

end FabricRs.Fabric

/-
  FabricRs.Ebpf.Access — the XDP program through its pointers
  (`fabric-rs-ebpf/src/main.rs`).

  `Ebpf.Xdp` reads fields of a packet; here each of the program's accesses is one of a
  pointer into the frame, which faults outside it. `ptrAt` is the check that hands the
  pointers out. The reads for the log lines are made too. `bpf_redirect` is a helper whose
  answer is a parameter; the calls made are kept.

  - `tryFabricRs_run`: no access faults, whatever the frame's length: the run is the
    packet-level function's.
  - `fabric_rs_spec`: what it answers and what it leaves, case by case.
-/

import FabricRs.Ebpf.Xdp
import FabricRs.Lib.Memory

namespace FabricRs.Ebpf.Access

open State
open Wire (Bytes)
open Memory (Buf Mem load storeBytes readBytes bind_run load_run storeBytes_run readBytes_run)

abbrev U64 := BitVec 64

/-- The calls of `bpf_redirect`: interface index and flags. -/
abbrev Calls := List (U32 × U64)

def EthHdr.len : Nat := 14
def Ipv4Hdr.len : Nat := 20

/-- `ptr_at::<T>`, `len` being `size_of::<T>()`. -/
def ptrAt (len offset : Nat) : Mem Calls (Option Nat) := fun ctx =>
  let start := ctx.1.base
  let limit := ctx.1.limit
  if start + offset + len > limit then some (none, ctx) else some (some (start + offset), ctx)

def ptrAtMut (len offset : Nat) : Mem Calls (Option Nat) := ptrAt len offset

/-- `(*p)[0] = mac[0]` to `(*p)[5] = mac[5]`. -/
def setMac (p : Nat) (mac : MacAddr) : Mem Calls Unit := storeBytes p [mac.a, mac.b, mac.c, mac.d, mac.e, mac.f]

/-- `(*p)[0]` to `(*p)[5]`, for a log line. -/
def readMac (p : Nat) : Mem Calls Unit := readBytes p 6

def bpfRedirect (answer : U32 → U64 → U64) (ifidx : U32) (flags : U64) : Mem Calls U64 := fun s =>
  some (answer ifidx flags, s.1, s.2 ++ [(ifidx, flags)])

/-- `try_fabric_rs` from the lookup's answer on. -/
def forward (answer : U32 → U64 → U64) (ethHdr : Nat) : Option NextHops → Mem Calls (Except U32 U32)
  | none => pure (.ok XdpAction.pass)
  | some routeNextHops =>
    -- the loop over the 32 next hops ends in its first turn
    let totalNextHops := (routeNextHops.get 0).totalNextHops
    if totalNextHops > 0 then do
      let nh := routeNextHops.get 0
      setMac (ethHdr + 6) nh.dstMac
      setMac ethHdr nh.srcMac
      readMac (ethHdr + 6)
      readMac ethHdr
      let res ← bpfRedirect answer nh.ifidx 0
      pure (.ok (res.setWidth 32))
    else pure (.ok XdpAction.pass)

def tryFabricRs (routingTable : LpmTrie) (answer : U32 → U64 → U64) : Mem Calls (Except U32 U32) := do
  let ethHdr ← ptrAtMut EthHdr.len 0
  match ethHdr with
  | none => pure (.error XdpAction.aborted)
  | some ethHdr =>
    let etherType ← load Wire.u16be (ethHdr + 12)
    if etherType = EtherType.loop then pure (.ok XdpAction.pass)
    else
      let etherType ← load Wire.u16be (ethHdr + 12)
      if etherType ≠ EtherType.ipv4 then pure (.ok XdpAction.pass)
      else
        let ipv4Hdr ← ptrAt Ipv4Hdr.len EthHdr.len
        match ipv4Hdr with
        | none => pure (.error XdpAction.aborted)
        | some ipv4Hdr =>
          let dstIp ← load Wire.u32le (ipv4Hdr + 16)
          let _srcIp ← load Wire.u32le (ipv4Hdr + 12)
          let key := lpmKey 32 (fromBe dstIp)
          forward answer ethHdr (routingTable.get key)

def fabricRs (routingTable : LpmTrie) (answer : U32 → U64 → U64) : Mem Calls U32 := do
  match ← tryFabricRs routingTable answer with
  | .ok ret => pure ret
  | .error _ => pure XdpAction.aborted

/-- The first next hop of the routes for an address. -/
def nextHop (t : LpmTrie) (d : U32) : Option RNH :=
  (t.get (lpmKey 32 d)).bind fun hops => if (hops.get 0).totalNextHops = 0 then none else some (hops.get 0)

theorem nextHop_eq_some {t : LpmTrie} {d : U32} {nh : RNH} : nextHop t d = some nh ↔
    ∃ hops, t.get (lpmKey 32 d) = some hops ∧ (hops.get 0).totalNextHops ≠ 0 ∧ hops.get 0 = nh := by
  unfold nextHop
  rw [Option.bind_eq_some_iff]
  refine exists_congr fun hops => and_congr_right fun _ => ?_
  by_cases hn : (hops.get 0).totalNextHops = 0
  · rw [if_pos hn]
    exact ⟨fun h => absurd h.symm (Option.some_ne_none nh), fun h => absurd hn h.1⟩
  · rw [if_neg hn, Option.some.injEq]
    exact ⟨fun h => ⟨hn, h⟩, fun h => h.2⟩

/-! ## One access after another -/

section run

variable {routingTable : LpmTrie} {answer : U32 → U64 → U64} {ctx : Buf} {calls : Calls}

theorem ptrAt_some_run {len offset : Nat} (h : offset + len ≤ ctx.bytes.length) :
    (ptrAt len offset).run (ctx, calls) = some (some (ctx.base + offset), (ctx, calls)) := by
  have hin : ¬ ctx.base + offset + len > ctx.limit := by unfold Buf.limit; omega
  exact if_neg hin

theorem ptrAt_none_run {len offset : Nat} (h : ctx.bytes.length < offset + len) :
    (ptrAt len offset).run (ctx, calls) = some (none, (ctx, calls)) := by
  have hout : ctx.base + offset + len > ctx.limit := by unfold Buf.limit; omega
  exact if_pos hout

theorem setMac_run {off : Nat} {mac : MacAddr} (h : off + 6 ≤ ctx.bytes.length) :
    (setMac (ctx.base + off) mac).run (ctx, calls) =
      some ((), (⟨ctx.base, Wire.put MacAddr.codec off mac ctx.bytes⟩, calls)) :=
  storeBytes_run h

theorem readMac_run {off : Nat} (h : off + 6 ≤ ctx.bytes.length) :
    (readMac (ctx.base + off)).run (ctx, calls) = some ((), (ctx, calls)) :=
  readBytes_run h

/-- The frame with the two MACs of a next hop. -/
def rewritten (nh : RNH) (frame : Bytes) : Bytes :=
  Wire.put MacAddr.codec 0 nh.srcMac (Wire.put MacAddr.codec 6 nh.dstMac frame)

theorem length_rewritten {nh : RNH} {frame : Bytes} (h : 12 ≤ frame.length) :
    (Wire.put MacAddr.codec 6 nh.dstMac frame).length = frame.length ∧ (rewritten nh frame).length = frame.length := by
  have h1 : (Wire.put MacAddr.codec 6 nh.dstMac frame).length = frame.length := Wire.length_put h
  have h2 : 0 + MacAddr.codec.width ≤ (Wire.put MacAddr.codec 6 nh.dstMac frame).length := by
    show 6 ≤ _
    omega
  exact ⟨h1, (Wire.length_put h2).trans h1⟩

theorem forward_redirect_run {hops : NextHops} (h : 12 ≤ ctx.bytes.length) (hn : (hops.get 0).totalNextHops > 0) :
    (forward answer ctx.base (some hops)).run (ctx, calls) = some (.ok ((answer (hops.get 0).ifidx 0).setWidth 32),
      (⟨ctx.base, rewritten (hops.get 0) ctx.bytes⟩, calls ++ [((hops.get 0).ifidx, 0)])) := by
  obtain ⟨hput, hre⟩ := @length_rewritten (hops.get 0) ctx.bytes h
  have h1 : 0 + 6 ≤ (Wire.put MacAddr.codec 6 (hops.get 0).dstMac ctx.bytes).length := by omega
  have h2 : 6 + 6 ≤ (rewritten (hops.get 0) ctx.bytes).length := by omega
  have h3 : 0 + 6 ≤ (rewritten (hops.get 0) ctx.bytes).length := by omega
  unfold forward
  simp only [if_pos hn]
  refine (bind_run (@setMac_run ctx calls 6 _ h)).trans ?_
  refine (bind_run (@setMac_run ⟨ctx.base, _⟩ calls 0 _ h1)).trans ?_
  refine (bind_run (@readMac_run ⟨ctx.base, rewritten (hops.get 0) ctx.bytes⟩ calls 6 h2)).trans ?_
  refine (bind_run (@readMac_run ⟨ctx.base, rewritten (hops.get 0) ctx.bytes⟩ calls 0 h3)).trans ?_
  rfl

theorem forward_pass_run {o : Option NextHops} (h : ∀ hops, o = some hops → ¬ (hops.get 0).totalNextHops > 0) :
    (forward answer ctx.base o).run (ctx, calls) = some (.ok XdpAction.pass, (ctx, calls)) := by
  cases o with
  | none => rfl
  | some hops =>
    unfold forward
    simp only [if_neg (h hops rfl)]
    rfl

theorem short_run (h : ctx.bytes.length < 14) :
    (tryFabricRs routingTable answer).run (ctx, calls) = some (.error XdpAction.aborted, (ctx, calls)) := by
  unfold tryFabricRs
  exact bind_run (@ptrAt_none_run ctx calls 14 0 (by omega))

theorem notIp_run (h : 14 ≤ ctx.bytes.length) (ht : Wire.get Wire.u16be 12 ctx.bytes ≠ EtherType.ipv4) :
    (tryFabricRs routingTable answer).run (ctx, calls) = some (.ok XdpAction.pass, (ctx, calls)) := by
  unfold tryFabricRs
  refine (bind_run (@ptrAt_some_run ctx calls 14 0 (by omega))).trans ?_
  refine (bind_run (@load_run _ _ Wire.u16be 12 ctx calls h)).trans ?_
  by_cases hloop : Wire.get Wire.u16be 12 ctx.bytes = EtherType.loop
  · rw [if_pos hloop]
    rfl
  · rw [if_neg hloop]
    refine (bind_run (@load_run _ _ Wire.u16be 12 ctx calls h)).trans ?_
    rw [if_pos ht]
    rfl

theorem ip_run (h : 14 ≤ ctx.bytes.length) (ht : Wire.get Wire.u16be 12 ctx.bytes = EtherType.ipv4) :
    (tryFabricRs routingTable answer).run (ctx, calls) =
      if ctx.bytes.length < 34 then some (.error XdpAction.aborted, (ctx, calls))
      else (forward answer ctx.base (routingTable.get (lpmKey 32 (Wire.get Wire.u32be 30 ctx.bytes)))).run (ctx, calls) := by
  have hloop : ¬ Wire.get Wire.u16be 12 ctx.bytes = EtherType.loop := by rw [ht]; decide
  unfold tryFabricRs
  refine (bind_run (@ptrAt_some_run ctx calls 14 0 (by omega))).trans ?_
  refine (bind_run (@load_run _ _ Wire.u16be 12 ctx calls h)).trans ?_
  rw [if_neg hloop]
  refine (bind_run (@load_run _ _ Wire.u16be 12 ctx calls h)).trans ?_
  rw [if_neg (not_not_intro ht)]
  by_cases hl : ctx.bytes.length < 34
  · rw [if_pos hl]
    exact bind_run (@ptrAt_none_run ctx calls 20 14 hl)
  · rw [if_neg hl, ← fromBe_get ctx.bytes 30 (by omega)]
    refine (bind_run (@ptrAt_some_run ctx calls 20 14 (by omega))).trans ?_
    refine (bind_run (@load_run _ _ Wire.u32le 30 ctx calls (by show 30 + 4 ≤ _; omega))).trans ?_
    exact bind_run (@load_run _ _ Wire.u32le 26 ctx calls (by show 26 + 4 ≤ _; omega))

/-- No access faults, and the frame and the answer are the packet-level function's. -/
theorem tryFabricRs_run : ∃ calls', (tryFabricRs routingTable answer).run (ctx, calls) =
    some ((Ebpf.tryFabricRs routingTable (fun ifidx => (answer ifidx 0).setWidth 32) ctx.bytes).1,
      (⟨ctx.base, (Ebpf.tryFabricRs routingTable (fun ifidx => (answer ifidx 0).setWidth 32) ctx.bytes).2⟩, calls')) := by
  unfold Ebpf.tryFabricRs
  rw [parse_eq]
  by_cases h14 : ctx.bytes.length < 14
  · rw [if_pos h14]
    exact ⟨calls, short_run h14⟩
  by_cases hip : Wire.get Wire.u16be 12 ctx.bytes ≠ EtherType.ipv4
  · rw [if_neg h14, if_pos hip]
    exact ⟨calls, notIp_run (by omega) hip⟩
  have hrun := @ip_run routingTable answer ctx calls (by omega) (not_not.mp hip)
  by_cases h34 : ctx.bytes.length < 34
  · rw [if_pos h34] at hrun
    rw [if_neg h14, if_neg hip, if_pos h34]
    exact ⟨calls, hrun⟩
  rw [if_neg h34] at hrun
  rw [if_neg h14, if_neg hip, if_neg h34, hrun]
  cases hget : routingTable.get (lpmKey 32 (Wire.get Wire.u32be 30 ctx.bytes)) with
  | none =>
    simp only [hget]
    exact ⟨calls, forward_pass_run fun hops h => by cases h⟩
  | some hops =>
    simp only [hget]
    by_cases hn : hops[0].totalNextHops > 0
    · rw [if_pos hn]
      exact ⟨_, forward_redirect_run (by omega) hn⟩
    · rw [if_neg hn]
      refine ⟨calls, forward_pass_run fun hops' h => ?_⟩
      cases h
      exact hn

end run

/-! ## The verdict and the frame -/

/-- What the program answers, what it leaves of the frame, and the redirects it asks for. -/
inductive Outcome (routingTable : LpmTrie) (answer : U32 → U64 → U64) (frame : Bytes) : U32 → Bytes → Calls → Prop
  | short : frame.length < 14 → Outcome routingTable answer frame XdpAction.aborted frame []
  | shortIp : 14 ≤ frame.length → Wire.get Wire.u16be 12 frame = EtherType.ipv4 → frame.length < 34 →
      Outcome routingTable answer frame XdpAction.aborted frame []
  | notIp : 14 ≤ frame.length → Wire.get Wire.u16be 12 frame ≠ EtherType.ipv4 →
      Outcome routingTable answer frame XdpAction.pass frame []
  | noEntry (d : U32) : IsIpv4 frame d → routingTable.get (lpmKey 32 d) = none →
      Outcome routingTable answer frame XdpAction.pass frame []
  | noNextHop (d : U32) (hops : NextHops) : IsIpv4 frame d → routingTable.get (lpmKey 32 d) = some hops →
      (hops.get 0).totalNextHops = 0 → Outcome routingTable answer frame XdpAction.pass frame []
  /-- Destination MAC, source MAC, and the rest as it came. -/
  | redirect (d : U32) (hops : NextHops) : IsIpv4 frame d → routingTable.get (lpmKey 32 d) = some hops →
      (hops.get 0).totalNextHops ≠ 0 → Outcome routingTable answer frame ((answer (hops.get 0).ifidx 0).setWidth 32)
        (MacAddr.codec.enc (hops.get 0).srcMac ++ (MacAddr.codec.enc (hops.get 0).dstMac ++ frame.drop 12))
        [((hops.get 0).ifidx, 0)]

theorem rewritten_eq {nh : RNH} {frame : Bytes} (h : 12 ≤ frame.length) :
    rewritten nh frame = MacAddr.codec.enc nh.srcMac ++ (MacAddr.codec.enc nh.dstMac ++ frame.drop 12) := by
  have henc : ∀ m : MacAddr, (MacAddr.codec.enc m).length = 6 := MacAddr.codec.enc_length
  have hpre : (frame.take 6).length = 6 := by
    rw [List.length_take]
    omega
  -- the source MAC, then the destination MAC over what is left in front of it
  have h1 : Wire.put MacAddr.codec 6 nh.dstMac frame =
      frame.take 6 ++ (MacAddr.codec.enc nh.dstMac ++ frame.drop 12) := by
    rw [Wire.put, Wire.splice, henc, List.append_assoc]
  rw [rewritten, h1, Wire.put, Wire.splice, henc, List.take_zero, List.nil_append, List.drop_left' hpre]

theorem tryFabricRs_outcome (routingTable : LpmTrie) (answer : U32 → U64 → U64) (ctx : Buf) :
    ∃ ret out calls, (tryFabricRs routingTable answer).run (ctx, []) = some (ret, (⟨ctx.base, out⟩, calls)) ∧
      Outcome routingTable answer ctx.bytes (match ret with | .ok ret => ret | .error _ => XdpAction.aborted) out calls := by
  by_cases h14 : ctx.bytes.length < 14
  · exact ⟨_, _, _, short_run h14, .short h14⟩
  have h14 : 14 ≤ ctx.bytes.length := Nat.le_of_not_lt h14
  by_cases hip : Wire.get Wire.u16be 12 ctx.bytes = EtherType.ipv4
  · have hrun := @ip_run routingTable answer ctx [] h14 hip
    by_cases h34 : ctx.bytes.length < 34
    · rw [if_pos h34] at hrun
      exact ⟨_, _, _, hrun, .shortIp h14 hip h34⟩
    rw [if_neg h34] at hrun
    have hd : IsIpv4 ctx.bytes (Wire.get Wire.u32be 30 ctx.bytes) := ⟨Nat.le_of_not_lt h34, hip, rfl⟩
    cases hget : routingTable.get (lpmKey 32 (Wire.get Wire.u32be 30 ctx.bytes)) with
    | none =>
      rw [hget] at hrun
      exact ⟨_, _, _, hrun.trans (forward_pass_run fun hops h => by cases h), .noEntry _ hd hget⟩
    | some hops =>
      rw [hget] at hrun
      by_cases hn : (hops.get 0).totalNextHops > 0
      · refine ⟨_, _, _, hrun.trans (forward_redirect_run (by omega) hn), ?_⟩
        rw [rewritten_eq (by omega)]
        exact .redirect _ hops hd hget ((BitVec.pos_iff_ne_zero _).mp hn)
      · refine ⟨_, _, _, hrun.trans (forward_pass_run fun hops' h => ?_), .noNextHop _ hops hd hget ?_⟩
        · cases h
          exact hn
        · exact not_not.mp fun h => hn ((BitVec.pos_iff_ne_zero _).mpr h)
  · exact ⟨_, _, _, notIp_run h14 hip, .notIp h14 hip⟩

/-- Every outcome keeps the frame's length and all but its MACs, and the whole frame unless
    it asks for a redirect. -/
theorem Outcome.frame {routingTable : LpmTrie} {answer : U32 → U64 → U64} {frame out : Bytes} {verdict : U32}
    {calls : Calls} (h : Outcome routingTable answer frame verdict out calls) :
    out.length = frame.length ∧ out.drop 12 = frame.drop 12 ∧ (out ≠ frame → calls ≠ []) := by
  cases h with
  | short => exact ⟨rfl, rfl, fun h => absurd rfl h⟩
  | shortIp => exact ⟨rfl, rfl, fun h => absurd rfl h⟩
  | notIp => exact ⟨rfl, rfl, fun h => absurd rfl h⟩
  | noEntry => exact ⟨rfl, rfl, fun h => absurd rfl h⟩
  | noNextHop => exact ⟨rfl, rfl, fun h => absurd rfl h⟩
  | redirect d hops hip =>
    have hl := hip.fits
    have henc : ∀ m : MacAddr, (MacAddr.codec.enc m).length = 6 := MacAddr.codec.enc_length
    have hmacs : (MacAddr.codec.enc (hops.get 0).srcMac ++ MacAddr.codec.enc (hops.get 0).dstMac).length = 12 := by
      rw [List.length_append, henc, henc]
    refine ⟨?_, ?_, fun _ h => by cases h⟩
    · rw [List.length_append, List.length_append, List.length_drop, henc, henc]
      omega
    · rw [← List.append_assoc]
      exact List.drop_left' hmacs

theorem fabricRs_outcome (routingTable : LpmTrie) (answer : U32 → U64 → U64) (ctx : Buf) :
    ∃ verdict out calls, (fabricRs routingTable answer).run (ctx, []) = some (verdict, (⟨ctx.base, out⟩, calls)) ∧
      Outcome routingTable answer ctx.bytes verdict out calls := by
  obtain ⟨ret, out, calls, hrun, ho⟩ := tryFabricRs_outcome routingTable answer ctx
  refine ⟨_, out, calls, ?_, ho⟩
  unfold fabricRs
  rw [bind_run hrun]
  cases ret <;> rfl

/-- A run's outcome, from what it has left. -/
theorem outcome_of_run {routingTable : LpmTrie} {answer : U32 → U64 → U64} {base base' : Nat} {frame out : Bytes}
    {verdict : U32} {calls : Calls}
    (h : (fabricRs routingTable answer).run (⟨base, frame⟩, []) = some (verdict, (⟨base', out⟩, calls))) :
    Outcome routingTable answer frame verdict out calls := by
  obtain ⟨verdict', out', calls', hrun, ho⟩ := fabricRs_outcome routingTable answer ⟨base, frame⟩
  rw [hrun] at h
  cases h
  exact ho

/-- A packet with a next hop is sent there under its MACs. -/
theorem run_of_nextHop {routingTable : LpmTrie} {answer : U32 → U64 → U64} {base : Nat} {frame : Bytes} {d : U32} {nh : RNH}
    (hd : IsIpv4 frame d) (hnh : nextHop routingTable d = some nh) :
    (fabricRs routingTable answer).run (⟨base, frame⟩, []) =
      some ((answer nh.ifidx 0).setWidth 32, (⟨base, rewritten nh frame⟩, [(nh.ifidx, 0)])) := by
  obtain ⟨hops, hget, hn, rfl⟩ := nextHop_eq_some.mp hnh
  have hl := hd.fits
  have hrun := @ip_run routingTable answer ⟨base, frame⟩ [] (show 14 ≤ frame.length by omega) hd.ethertype
  rw [if_neg (show ¬ frame.length < 34 by omega), hd.dst, hget] at hrun
  have hgo := hrun.trans (forward_redirect_run (show 12 ≤ frame.length by omega) ((BitVec.pos_iff_ne_zero _).mpr hn))
  unfold fabricRs
  rw [bind_run hgo]
  rfl

/-- The program run on any frame and any table makes no access outside the frame, and its
    verdict, the frame and the redirects are one of the outcomes. -/
theorem fabric_rs_spec (routingTable : LpmTrie) (answer : U32 → U64 → U64) (ctx : Buf) :
    ∃ verdict out calls, (fabricRs routingTable answer).run (ctx, []) = some (verdict, (⟨ctx.base, out⟩, calls)) ∧
      Outcome routingTable answer ctx.bytes verdict out calls ∧
      out.length = ctx.bytes.length ∧ out.drop 12 = ctx.bytes.drop 12 ∧ (out ≠ ctx.bytes → calls ≠ []) := by
  obtain ⟨verdict, out, calls, hrun, ho⟩ := fabricRs_outcome routingTable answer ctx
  exact ⟨verdict, out, calls, hrun, ho, ho.frame⟩

end FabricRs.Ebpf.Access

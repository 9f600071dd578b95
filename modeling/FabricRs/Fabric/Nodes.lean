/-
  FabricRs.Fabric.Nodes — the nodes of a fabric and the links between them.

  Each node runs `UserSpace::run` (`FabricRs.Network.Tasks`); `wire n k m k'` says that what
  `n` sends on its interface `k` can be heard by `m` on its interface `k'`. A frame its
  sender task takes goes out on the interface's link, if there is one. What a reader gets
  is a frame that went out on a link to it, or one that is no hello. Between the two a
  frame may be lost, doubled, delayed and overtaken.

  - `neighbors_real`: whatever the links do, each entry of a neighbor table is a node that
    sends hellos, with the addresses of the two ends of a link between them.
  - `stays_silent`: with the clients `UserSpace::run` takes, no frame is sent and every neighbor
    table stays empty.
-/

import FabricRs.UserSpace.Discovery
import FabricRs.Network.Hellos

namespace FabricRs.Fabric

open Network State UserSpace SendReceive
open Lts (Chan)
open Function (update)
open Wire (Bytes)

/-- What `main` and `UserSpace::run` start a node with. -/
structure Node where
  interfaces : Interfaces
  id : U32
  srClient : SendReceive.Client
  lpmTrie : LpmTrie

structure World (N : Type) where
  node : N → Net
  /-- The frames that went out, and from which node. -/
  sent : List (N × Frame)

section

variable {N : Type} (nodes : N → Node) (wire : N → U32 → N → U32 → Prop)

abbrev NetStep (n : N) (τ : Task) (c : Cause) (s t : Net) : Prop :=
  Network.Step (nodes n).interfaces (nodes n).id (nodes n).srClient (nodes n).lpmTrie τ c s t

def init : World N := ⟨fun n => Network.init (nodes n).interfaces (nodes n).lpmTrie, []⟩

/-- `sender_list.get_mut(&ifidx)`: a frame for an interface without a sender goes nowhere. -/
def out (n : N) (f : Frame) : List (N × Frame) :=
  if ((nodes n).interfaces.get f.ifidx).isSome then [(n, f)] else []

/-- What `m` can hear on its interface `k`. -/
inductive Arrives (s : World N) (m : N) (k : U32) (buf : Bytes) : Prop
  | sent (n : N) (f : Frame) : (n, f) ∈ s.sent → wire n f.ifidx m k → f.msg = buf → Arrives s m k buf
  | other : hello (nodes m).interfaces ⟨k, buf⟩ = none → Arrives s m k buf

/-- A step that leaves the links alone. -/
def Inner : Task → Cause → Prop
  | .reader _, .event => False
  | .frameSender, _ => False
  | _, _ => True

variable [DecidableEq N]

inductive Step : N → Task → Cause → World N → World N → Prop
  | inner {s} (n : N) (τ : Task) (c : Cause) (t : Net) : NetStep nodes n τ c (s.node n) t → Inner τ c →
      Step n τ c s { s with node := update s.node n t }
  | read {s} (m : N) (k : U32) (buf : Bytes) (p : Pipe) : Arrives nodes wire s m k buf →
      Pipe.Step (nodes m).interfaces (.read k) (s.node m).pipe p →
      p.links = update (s.node m).pipe.links k ((s.node m).pipe.links k ++ [buf]) →
      Step m (.reader k) .event s { s with node := update s.node m { s.node m with pipe := p } }
  | send {s} (n : N) (f : Frame) (q' : Chan chanCap Frame) : (s.node n).sendq.recv = some (f, q') →
      Step n .frameSender .own s {
        node := update s.node n { s.node n with sendq := q' }
        sent := s.sent ++ out nodes n f }

abbrev Steps (s t : World N) : Prop := ∃ n τ c, Step nodes wire n τ c s t

abbrev Reach (s : World N) : Prop := Lts.Reach (· = init nodes) (Steps nodes wire) s

/-- A link on which the hellos of `n`, whose disco sender has the channel, can get to `m`. -/
structure Adjacent (n m : N) (d : Delivery) : Prop where
  channel : (nodes n).srClient.senderChannel = some .mk
  via : (nodes n).interfaces.get d.via.ifidx = some d.via
  heardOn : (nodes m).interfaces.get d.heardOn.ifidx = some d.heardOn
  wired : wire n d.via.ifidx m d.heardOn.ifidx

end

variable {N : Type} {nodes : N → Node} {wire : N → U32 → N → U32 → Prop}

theorem mem_out {n : N} {f : Frame} {x : N × Frame} (h : x ∈ out nodes n f) : x = (n, f) := by
  unfold out at h
  split at h
  · exact List.mem_singleton.mp h
  · cases h

theorem Arrives.mono {s t : World N} (h : s.sent <+: t.sent) {m : N} {k : U32} {buf : Bytes}
    (ha : Arrives nodes wire s m k buf) : Arrives nodes wire t m k buf := by
  cases ha with
  | sent n f hf hw hm => exact .sent n f (h.mem hf) hw hm
  | other ho => exact .other ho

variable [DecidableEq N]

/-! ## One node in a run of the fabric -/

/-- A step is one of its node's; the others stay as they are. -/
theorem step_node {n : N} {τ : Task} {c : Cause} {s t : World N} (h : Step nodes wire n τ c s t) :
    NetStep nodes n τ c (s.node n) (t.node n) ∧ ∀ m, m ≠ n → t.node m = s.node m := by
  cases h with
  | inner n τ c t hs _ =>
    refine ⟨?_, fun m hm => Function.update_of_ne hm _ _⟩
    simpa only [Function.update_self] using hs
  | read _ k buf p _ hp _ =>
    refine ⟨?_, fun m hm => Function.update_of_ne hm _ _⟩
    simpa only [Function.update_self] using Network.Step.read k p hp
  | send _ f q' hq =>
    refine ⟨?_, fun m hm => Function.update_of_ne hm _ _⟩
    simpa only [Function.update_self] using Network.Step.send f q' hq

theorem reach_node {s : World N} (h : Reach nodes wire s) (n : N) :
    Network.Reach (nodes n).interfaces (nodes n).id (nodes n).srClient (nodes n).lpmTrie (s.node n) := by
  refine Lts.Reach.map (fun s : World N => s.node n) (fun s hs => by rw [hs]; rfl) (fun s t _ ⟨m, τ, c, hs⟩ => ?_) h
  obtain ⟨h1, h2⟩ := step_node hs
  by_cases e : n = m
  · subst e
    exact Or.inl ⟨τ, c, h1⟩
  · exact Or.inr (h2 n e)

variable (nodes) in
/-- The steps of a node between two of its links'. -/
abbrev Within (n : N) (a b : Net) : Prop := ∃ τ c, NetStep nodes n τ c a b ∧ Inner τ c

theorem reach_within {s : World N} (h : Reach nodes wire s) {n : N} {t : Net}
    (ht : Lts.Reach (· = s.node n) (Within nodes n) t) : ∃ s', Reach nodes wire s' ∧ s'.node n = t := by
  induction ht with
  | init he => exact ⟨s, h, he.symm⟩
  | step _ hs ih =>
    obtain ⟨τ, c, hn, hi⟩ := hs
    obtain ⟨s', h', he⟩ := ih
    exact ⟨_, h'.step ⟨n, τ, c, .inner n τ c _ (he ▸ hn) hi⟩, Function.update_self ..⟩

/-- Only a frame sender's step sends. -/
theorem step_sent {n : N} {τ : Task} {c : Cause} {s t : World N} (h : Step nodes wire n τ c s t) :
    t.sent = s.sent ∨ (τ = .frameSender ∧ ∃ f, (s.node n).sendq.buf = f :: (t.node n).sendq.buf ∧
      t.sent = s.sent ++ out nodes n f) := by
  cases h with
  | inner n τ c t _ _ => exact Or.inl rfl
  | read _ k buf p _ _ _ => exact Or.inl rfl
  | send _ f q' hq =>
    refine Or.inr ⟨rfl, f, ?_, rfl⟩
    simpa only [Function.update_self] using Chan.recv_eq_some.mp hq

theorem sent_mono {s t : World N} (h : Steps nodes wire s t) : s.sent <+: t.sent := by
  obtain ⟨n, τ, c, hs⟩ := h
  rcases step_sent hs with h | ⟨-, f, -, h⟩
  · rw [h]
  · rw [h]
    exact List.prefix_append _ _

/-- What goes out are hellos of nodes that have the channel. -/
theorem sent_hellos {s : World N} (h : Reach nodes wire s) : ∀ x ∈ s.sent,
    OwnHello (nodes x.1).interfaces (nodes x.1).id x.2 ∧ (nodes x.1).srClient.senderChannel = some .mk := by
  refine h.inv (P := fun s => ∀ x ∈ s.sent, OwnHello (nodes x.1).interfaces (nodes x.1).id x.2 ∧
    (nodes x.1).srClient.senderChannel = some .mk) (fun s hs => by rw [hs]; intro x hx; cases hx) ?_
  intro s t hr ih ⟨n, τ, c, hs⟩ x hx
  rcases step_sent hs with he | ⟨-, f, hf, he⟩
  · exact ih x (he ▸ hx)
  · rw [he] at hx
    rcases List.mem_append.mp hx with hx | hx
    · exact ih x hx
    · rw [mem_out hx]
      have hmem : f ∈ (s.node n).sendq.buf := by rw [hf]; exact List.mem_cons_self
      refine ⟨Network.hello_of (reach_node hr n) f (List.mem_append_right _ hmem), ?_⟩
      cases hc : (nodes n).srClient.senderChannel with
      | none => rw [sendq_empty (reach_node hr n) hc] at hmem; cases hmem
      | some x => rfl

/-! ## What is heard -/

/-- Only a read changes what was read on a link. -/
theorem step_read {n : N} {τ : Task} {c : Cause} {s t : World N} (h : Step nodes wire n τ c s t) (k : U32) :
    (t.node n).pipe.links k = (s.node n).pipe.links k ∨
      ∃ buf, Arrives nodes wire s n k buf ∧ (t.node n).pipe.links k = (s.node n).pipe.links k ++ [buf] := by
  cases h with
  | inner n τ c t hs hi =>
    refine Or.inl ?_
    simp only [Function.update_self]
    cases hs with
    | read _ _ _ => exact hi.elim
    | push _ _ hp => cases hp; rfl
    | relay _ hp => cases hp <;> rfl
    | take _ _ hp _ _ => cases hp; rfl
    | _ => rfl
  | read _ k' buf p ha _ hl =>
    simp only [Function.update_self, hl]
    by_cases e : k = k'
    · subst e
      exact Or.inr ⟨buf, ha, Function.update_self ..⟩
    · exact Or.inl (Function.update_of_ne e _ _)
  | send _ f q' _ =>
    refine Or.inl ?_
    simp only [Function.update_self]

/-- What a reader took off a link has arrived there. -/
theorem links_arrived {s : World N} (h : Reach nodes wire s) (m : N) (k : U32) :
    ∀ buf ∈ (s.node m).pipe.links k, Arrives nodes wire s m k buf := by
  refine h.inv (P := fun s => ∀ buf ∈ (s.node m).pipe.links k, Arrives nodes wire s m k buf) ?_ ?_
  · intro s hs
    rw [hs]
    intro buf hb
    cases hb
  · intro s t _ ih ⟨n, τ, c, hs⟩ buf hb
    have hmono := sent_mono ⟨n, τ, c, hs⟩
    by_cases hm : m = n
    · subst hm
      rcases step_read hs k with hl | ⟨buf', ha, hl⟩
      · exact (ih buf (hl ▸ hb)).mono hmono
      · rw [hl] at hb
        rcases List.mem_append.mp hb with hb | hb
        · exact (ih buf hb).mono hmono
        · rw [List.mem_singleton.mp hb]
          exact ha.mono hmono
    · rw [(step_node hs).2 m hm] at hb
      exact (ih buf hb).mono hmono

/-- Each hello in a table came from an adjacent node. -/
theorem applied_adjacent {s : World N} (h : Reach nodes wire s) (m : N) :
    ∀ x ∈ applied (nodes m).interfaces (s.node m).mail, ∃ n d, Adjacent nodes wire n m d ∧ x.1 = (nodes n).id ∧
      x.2 = { d.interface with neighborMac := .zero } := by
  intro x hx
  have hr := reach_node h m
  have hmem : x ∈ announcedOn (nodes m).interfaces x.2.localIfidx (s.node m) :=
    (hellos_of_links hr _).mem (List.mem_filter.mpr ⟨List.mem_of_mem_take hx, decide_eq_true rfl⟩)
  obtain ⟨buf, hb, hh⟩ := List.mem_filterMap.mp hmem
  cases links_arrived h m _ buf hb with
  | other ho => rw [ho] at hh; cases hh
  | sent n f hf hw hm =>
    obtain ⟨⟨i, hi, hd⟩, hc⟩ := sent_hellos h _ hf
    obtain ⟨_, _, j, _, hj, _⟩ := hello_iff.mp (by rw [hh] : hello (nodes m).interfaces ⟨x.2.localIfidx, buf⟩ = some (x.1, x.2))
    have hki := (nodes n).interfaces.keyed _ i hi
    have hkj := (nodes m).interfaces.keyed _ j hj
    have hheard : (nodes m).interfaces.get (⟨i, j⟩ : Delivery).heardOn.ifidx = some j := by rw [hkj]; exact hj
    obtain ⟨f', hf', hh'⟩ := hello_delivery (nodes n).id hheard
    unfold Delivery.frame at hf'
    rw [hd, Option.map_some, Option.some.injEq] at hf'
    have hx : x = ((nodes n).id, { (⟨i, j⟩ : Delivery).interface with neighborMac := .zero }) := by
      rw [← hf', hm, hkj, hh, Option.some.injEq] at hh'
      exact hh'
    rw [hx]
    exact ⟨n, ⟨i, j⟩, ⟨hc, by rw [hki]; exact hi, by rw [hkj]; exact hj, by rw [hki, hkj]; exact hw⟩, rfl, rfl⟩

theorem entry_hearAll {hs : List (U32 × NeighborInterface)} {id : U32} {mac : MacAddr} {e : NeighborInterface}
    (h : entry (hearAll hs) id mac = some e) : (id, e) ∈ hs ∧ e.neighborMac = mac := by
  induction hs using List.reverseRecOn with
  | nil => cases h
  | append_singleton hs x ih =>
    have hx : hearAll (hs ++ [x]) = hear (hearAll hs) x.1 x.2 := by simp [hearAll]
    rw [hx] at h
    have he : entry (hear (hearAll hs) x.1 x.2) (id, mac).1 (id, mac).2 = some e := h
    rw [entry_hear] at he
    by_cases hk : (id, mac) = (x.1, x.2.neighborMac)
    · rw [if_pos hk, Option.some.injEq] at he
      rw [Prod.mk.injEq] at hk
      refine ⟨List.mem_append_right _ (List.mem_singleton.mpr ?_), by rw [← he, hk.2]⟩
      rw [hk.1, ← he]
    · rw [if_neg hk] at he
      exact ⟨List.mem_append_left _ (ih he).1, (ih he).2⟩

/-- Whatever the links lose, double or reorder, in every reachable state each entry of a
    node's neighbor table is of a node that sends hellos and of a link from it: it has
    the addresses of the two ends, the MAC zero in place of the sender's, and is keyed by
    that. -/
theorem neighbors_real {s : World N} (h : Reach nodes wire s) {m : N} {id : U32} {mac : MacAddr} {e : NeighborInterface}
    (he : entry (s.node m).mail.srv.nt id mac = some e) :
    mac = .zero ∧ ∃ n d, Adjacent nodes wire n m d ∧ (nodes n).id = id ∧
      e = { d.interface with neighborMac := .zero } := by
  rw [receiver_heard (receiving (reach_node h m))] at he
  obtain ⟨hx, hmac⟩ := entry_hearAll he
  obtain ⟨n, d, hd, hid, hi⟩ := applied_adjacent h m _ hx
  have hi : e = { d.interface with neighborMac := .zero } := hi
  refine ⟨?_, n, d, hd, hid.symm, hi⟩
  rw [← hmac, hi]

/-- Two nodes on one wire. -/
def twoNodes (n : Bool) : Node := ⟨oneLink, if n then 9 else 7, ⟨some .mk⟩, noRoutes⟩
def oneWire (n : Bool) (k : U32) (m : Bool) (k' : U32) : Prop := n ≠ m ∧ k = 1 ∧ k' = 1

/-- The hello of the one with the id 7. -/
def hello7 : Frame :=
  ⟨1, EthernetPacket.hdr.enc (.broadcast, eth1.mac, 0x0060) ++
    (DiscoHdrPacket.hdr.enc (7, eth1.ip.toU32, .zero, 0) ++ List.replicate 9 0)⟩

theorem neighbors_real_two : ∃ (s : World Bool) (e : NeighborInterface),
    entry (s.node true).mail.srv.nt 7 .zero = some e ∧ MacAddr.zero = .zero ∧
    ∃ n d, Adjacent twoNodes oneWire n true d ∧ (twoNodes n).id = 7 ∧ e = { d.interface with neighborMac := .zero } := by
  let ni : NeighborInterface := { (⟨eth1, eth1⟩ : Delivery).interface with neighborMac := .zero }
  let r : Mailbox.Req StateCommand := ⟨0, 0, .get (.neighbor 7), 0⟩
  let r' : Mailbox.Req StateCommand := ⟨0, 1, .add (.neighbor 7 (Neighbor.new.addInterface ni)), 1⟩
  have w0 : Reach twoNodes oneWire (init twoNodes) := .init rfl
  have w1 := w0.step ⟨_, _, _, .inner false .discoSender .event _ (.tick [(1, eth1)] rfl rfl) trivial⟩
  have w2 := w1.step ⟨_, _, _, .inner false .discoSender .own _
    (.hello hello7 [] ⟨[hello7], by decide⟩ rfl rfl (Chan.send_eq_some.mpr rfl)) trivial⟩
  have w3 := w2.step ⟨_, _, _, .send false hello7 .empty (Chan.recv_eq_some.mpr rfl)⟩
  have w4 := w3.step ⟨_, _, _, .read true 1 hello7.msg _ (.sent false hello7 (List.mem_singleton.mpr rfl) ⟨by decide, rfl, rfl⟩ rfl)
    (.read 1 eth1 hello7.msg oneLink_eth1 rfl) rfl⟩
  let x : Net := { Network.init oneLink noRoutes with
    pipe := { Pipe.init with links := update Pipe.init.links 1 [hello7.msg], hand := update Pipe.init.hand 1 (some hello7) } }
  have s0 : Lts.Reach (· = x) (Within twoNodes true) x := .init rfl
  have s1 := s0.step ⟨_, .own, .push 1 _ (.push 1 hello7 ⟨[hello7], by decide⟩ rfl (Chan.send_eq_some.mpr rfl)), trivial⟩
  have s2 := s1.step ⟨_, .own, .relay _ (.relayTake hello7 .empty rfl (Chan.recv_eq_some.mpr rfl)), trivial⟩
  have s3 := s2.step ⟨_, .own, .relay _ (.relayPush hello7 ⟨[hello7], by decide⟩ rfl (Chan.send_eq_some.mpr rfl)), trivial⟩
  have s4 := s3.step ⟨_, .own, .take hello7 _ (.take hello7 .empty (Chan.recv_eq_some.mpr rfl)) rfl rfl, trivial⟩
  have hh : hello (twoNodes true).interfaces hello7 = some (7, ni) := hello_of_wire ⟨_, _, _, rfl⟩ oneLink_eth1
  rw [hh] at s4
  have hget : ∀ {h : Handler}, h = .get 7 ni → h ≠ .idle := fun e e' => by rw [e] at e'; cases e'
  have hadd : ∀ {h : Handler}, h = .add 7 (Neighbor.new.addInterface ni) → h ≠ .idle := fun e e' => by
    rw [e] at e'
    cases e'
  have hcall : (Handler.get 7 ni).call = some r.call := rfl
  have hcall' : (Handler.add 7 (Neighbor.new.addInterface ni)).call = some r'.call := rfl
  have s5 := s4.step ⟨_, .own, .handle _ (hget rfl) (.begin 0 r.call rfl hcall fun h => by cases h), trivial⟩
  have s6 := s5.step ⟨_, .own, .handle _ (hget rfl) (.push 0 r ⟨[r], by decide⟩ rfl rfl rfl (Chan.send_eq_some.mpr rfl)), trivial⟩
  have s7 := s6.step ⟨_, .own, .state _ (.serve r .empty _ _ (Chan.recv_eq_some.mpr rfl) (.get _ _)), trivial⟩
  have s8 := s7.step ⟨_, .own, .handle _ (hget rfl) (.recv 0 r (.value none) rfl rfl), trivial⟩
  have s9 := s8.step ⟨_, .own, .handle _ (hadd rfl) (.begin 0 r'.call rfl hcall' fun h => by cases h), trivial⟩
  have s10 := s9.step ⟨_, .own, .handle _ (hadd rfl) (.post 0 r' ⟨[r'], by decide⟩ rfl rfl rfl (Chan.send_eq_some.mpr rfl)), trivial⟩
  have s11 := s10.step ⟨_, .own, .state _ (.serve r' .empty _ _ (Chan.recv_eq_some.mpr rfl) (.add _ _)), trivial⟩
  obtain ⟨s, hr, hs⟩ := reach_within w4 (n := true) s11
  exact ⟨s, ni, by rw [hs]; rfl, neighbors_real hr (by rw [hs]; rfl)⟩

/-- If each disco sender has a client that was handed out before its `SendReceive` was run,
    as `UserSpace::run` gives it one, no node ever sends a frame and every neighbor table
    is empty, in every reachable state. -/
theorem stays_silent {s : World N} (h : Reach nodes wire s)
    (hclient : ∀ n, ∃ u, SendReceive.Reach u ∧ ⟨(nodes n).srClient, true⟩ ∈ u.handles) :
    s.sent = [] ∧ ∀ m, (s.node m).mail.srv.nt = .new := by
  have hnone : ∀ n, (nodes n).srClient.senderChannel = none := by
    intro n
    obtain ⟨u, hu, hx⟩ := hclient n
    exact Option.isNone_iff_eq_none.mp ((SendReceive.inv hu).handles _ hx).symm
  refine ⟨List.eq_nil_iff_forall_not_mem.mpr fun x hx => ?_, fun m => ?_⟩
  · have hc := (sent_hellos h x hx).2
    rw [hnone] at hc
    cases hc
  · rw [receiver_heard (receiving (reach_node h m))]
    have hnil : applied (nodes m).interfaces (s.node m).mail = [] := by
      refine List.eq_nil_iff_forall_not_mem.mpr fun x hx => ?_
      obtain ⟨n, d, hd, -⟩ := applied_adjacent h m x hx
      exact absurd hd.channel (by rw [hnone]; simp)
    rw [hnil]
    rfl

/-- A hello is dropped. -/
theorem stays_silent_two : ∃ s : World Bool, (s.node false).hellos = [] ∧ s.sent = [] ∧ ∀ m, (s.node m).mail.srv.nt = .new := by
  let nodes : Bool → Node := fun n => { twoNodes n with srClient := ⟨none⟩ }
  have s0 : Reach nodes oneWire (init nodes) := .init rfl
  have s1 := s0.step ⟨_, _, _, .inner false .discoSender .event _ (.tick [(1, eth1)] rfl rfl) trivial⟩
  have s2 := s1.step ⟨_, _, _, .inner false .discoSender .own _ (.drop hello7 [] rfl rfl) trivial⟩
  exact ⟨_, rfl, stays_silent s2 fun _ => ⟨_, userSpace_reach, List.mem_cons_self⟩⟩

end FabricRs.Fabric

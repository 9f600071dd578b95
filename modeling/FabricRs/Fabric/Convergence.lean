/-
  FabricRs.Fabric.Convergence — neighbor discovery in a fabric (see
  `FabricRs.Fabric.Nodes`).

  Some nodes are up; of the others nothing is asked, they may stop at any point. Of a node
  that is up no task hellos go through is passed over for ever, and its timer goes on; and
  no link between two of them loses all copies of a frame that is sent onto it again and
  again to a reader that waits for it again and again. A link may lose any number of them,
  and deliver what it does in any order.

  - `hello_sent`: each hello of a node with the channel goes out again and again.
  - `converges`: from some time on each node that is up lists those up from which hellos
    can get to it, and no node from which none can.
-/

import Mathlib.Data.Countable.Basic
import Mathlib.Data.Finite.Prod
import Mathlib.Data.Fintype.Order
import Mathlib.Logic.Equiv.List
import FabricRs.Lib.Schedule
import FabricRs.Fabric.Nodes

namespace FabricRs.Fabric

open Network State UserSpace SendReceive
open Lts (Chan Behavior Enabled Unless)
open Lts.Behavior (LeadsTo leads_of_fair)

variable {N : Type} [DecidableEq N] {nodes : N → Node} {wire : N → U32 → N → U32 → Prop}

variable (nodes wire) in
abbrev Trace : Type := Behavior (· = init nodes) (Steps nodes wire)

variable (nodes) in
/-- The reader of an interface of `m` waits for its link. -/
def Listens (m : N) (k : U32) (s : World N) : Prop :=
  ((nodes m).interfaces.get k).isSome ∧ (s.node m).pipe.hand k = none

/-- The tasks hellos go through. -/
def Carries : Task → Prop
  | .cliRelay => False
  | .prompt => False
  | _ => True

structure FairRun (up : N → Prop) (b : Trace nodes wire) : Prop where
  own : ∀ n, up n → ∀ τ, Carries τ → b.Fair (Step nodes wire n τ .own)
  tick : ∀ n, up n → b.Fair (Step nodes wire n .discoSender .event)
  link : ∀ n f m k, up n → up m → wire n f.ifidx m k → (∀ c, ∃ j, c ≤ (b.state j).sent.count (n, f)) → b.Often (Listens nodes m k) →
    ∃ j, f.msg ∈ ((b.state j).node m).pipe.links k

/-! ## One node of a run -/

/-- A node's part of a run. -/
def nodeTrace (b : Trace nodes wire) (n : N) :
    Network.Trace (nodes n).interfaces (nodes n).id (nodes n).srClient (nodes n).lpmTrie :=
  b.map (fun s => s.node n) (fun s hs => by rw [hs]; rfl) fun s t _ ⟨m, τ, c, hs⟩ => by
    obtain ⟨h1, h2⟩ := step_node hs
    by_cases e : n = m
    · subst e
      exact Or.inl ⟨τ, c, h1⟩
    · exact Or.inr (h2 n e)

section

variable {up : N → Prop} {b : Trace nodes wire} (hb : FairRun up b)

include hb

theorem fair_own {n : N} (hn : up n) {τ : Task} (hτ : Carries τ) : (nodeTrace b n).Fair
    (Network.Own (nodes n).interfaces (nodes n).id (nodes n).srClient (nodes n).lpmTrie τ) := by
  refine (hb.own n hn τ hτ).map (fun s _ ⟨t, ht⟩ => ?_) fun s t ht => (step_node ht).1
  by_cases hi : Inner τ .own
  · exact ⟨_, .inner n τ .own t ht hi⟩
  · cases ht with
    | send f q' hq => exact ⟨_, .send n f q' hq⟩
    | _ => exact absurd trivial hi

theorem alive {n : N} (hn : up n) : Alive (nodeTrace b n) :=
  ⟨fair_own hb hn trivial, fair_own hb hn trivial, fair_own hb hn trivial⟩

theorem fair_tick {n : N} (hn : up n) : (nodeTrace b n).Fair
    (Network.Step (nodes n).interfaces (nodes n).id (nodes n).srClient (nodes n).lpmTrie .discoSender .event) :=
  (hb.tick n hn).map (fun _ _ ⟨t, ht⟩ => ⟨_, .inner n .discoSender .event t ht trivial⟩) fun _ _ ht => (step_node ht).1

/-! ## Out -/

omit hb in
/-- The frame in front is the one that goes out. -/
theorem front_sent {n : N} {s t : World N} (h : Step nodes wire n .frameSender .own s t) {f : Frame} {l : List Frame}
    (hl : f :: l <+: (s.node n).sendq.buf) : l <+: (t.node n).sendq.buf ∧ t.sent = s.sent ++ out nodes n f := by
  cases h with
  | inner _ _ _ _ _ hi => exact hi.elim
  | send _ g q' hq =>
    rw [Chan.recv_eq_some.mp hq] at hl
    obtain ⟨rfl, hl'⟩ := List.cons_prefix_cons.mp hl
    simpa only [Function.update_self, and_true] using hl'

omit hb in
/-- Behind it the channel only grows. -/
theorem sendq_grows {n m : N} {τ : Task} {c : Cause} {s t : World N} (h : Step nodes wire m τ c s t) :
    (s.node n).sendq.buf <+: (t.node n).sendq.buf ∨ (m = n ∧ τ = .frameSender ∧ c = .own) := by
  obtain ⟨h1, h2⟩ := step_node h
  by_cases e : n = m
  · subst e
    cases step_sends h1 with
    | none _ hq => exact Or.inl (by rw [hq])
    | tick _ _ _ _ hq => exact Or.inl (by rw [hq])
    | drop _ _ _ hq => exact Or.inl (by rw [hq])
    | hello f _ _ hq => exact Or.inl (by rw [hq]; exact List.prefix_append _ _)
    | send _ _ _ => exact Or.inr ⟨rfl, rfl, rfl⟩
  · exact Or.inl (by rw [h2 n e])

/-- What a node has queued goes out. -/
theorem queued_sent {n : N} (hn : up n) {f : Frame} (hf : ((nodes n).interfaces.get f.ifidx).isSome) (c : Nat) :
    b.LeadsTo (fun s => c ≤ s.sent.count (n, f) ∧ f ∈ (s.node n).sendq.buf) fun s => c + 1 ≤ s.sent.count (n, f) := by
  refine LeadsTo.queue fun g l => ?_
  have hcount : ∀ s t, Steps nodes wire s t → c ≤ s.sent.count (n, f) → c ≤ t.sent.count (n, f) := fun s t hs hc =>
    hc.trans ((sent_mono hs).sublist.count_le _)
  have hsend : ∀ s t, Step nodes wire n .frameSender .own s t →
      c ≤ s.sent.count (n, f) ∧ g :: l <+: (s.node n).sendq.buf →
      (c ≤ t.sent.count (n, f) ∧ l <+: (t.node n).sendq.buf) ∧ (g = f → c + 1 ≤ t.sent.count (n, f)) := by
    intro s t hs ⟨hc, hl⟩
    obtain ⟨hl', hsent⟩ := front_sent hs hl
    refine ⟨⟨hcount s t ⟨_, _, _, hs⟩ hc, hl'⟩, fun e => ?_⟩
    subst e
    rw [hsent, out, if_pos hf, List.count_append, List.count_singleton_self]
    exact Nat.succ_le_succ hc
  refine leads_of_fair (hb.own n hn .frameSender trivial) (fun s t _ ⟨hc, hl⟩ ⟨m, τ, c', hs⟩ => ?_) (fun s _ ⟨_, hl⟩ => ?_)
    fun s t _ hp hs => hsend s t hs hp
  · rcases sendq_grows (n := n) hs with hq | ⟨rfl, rfl, rfl⟩
    · exact Or.inl ⟨hcount s t ⟨_, _, _, hs⟩ hc, hl.trans hq⟩
    · exact Or.inr (hsend s t hs ⟨hc, hl⟩)
  · obtain ⟨f', q', hq⟩ := (s.node n).sendq.exists_recv fun e => by rw [e] at hl; cases List.prefix_nil.mp hl
    exact ⟨_, .send n f' q' hq⟩

theorem hello_sent {n : N} (hn : up n) (hc : (nodes n).srClient.senderChannel = some .mk) {f : Frame}
    (hf : OwnHello (nodes n).interfaces (nodes n).id f) (c : Nat) : ∃ j, c ≤ (b.state j).sent.count (n, f) := by
  induction c with
  | zero => exact ⟨0, Nat.zero_le _⟩
  | succ c ih =>
    obtain ⟨j, hj⟩ := ih
    obtain ⟨m, hm, hq⟩ := hello_queued (fair_own hb hn trivial) (fair_own hb hn trivial) (fair_tick hb hn) hc hf j
    have hcm : c ≤ (b.state m).sent.count (n, f) := Lts.Behavior.stable (P := fun s : World N => c ≤ s.sent.count (n, f))
      (fun s t _ h hs => h.trans ((sent_mono hs).sublist.count_le _)) hm hj
    obtain ⟨i, hi, -⟩ := hf
    obtain ⟨k, -, hk⟩ := queued_sent hb hn (by rw [hi]; rfl) c m ⟨hcm, hq⟩
    exact ⟨k, hk⟩

/-! ## And in -/

theorem listens_often {m : N} (hm : up m) {k : U32} (hk : ((nodes m).interfaces.get k).isSome) : b.Often (Listens nodes m k) := by
  intro n
  obtain ⟨j, hj, hfree⟩ := hand_free (alive hb hm) (fair_own hb hm trivial) n
  exact ⟨j, hj, hk, hfree⟩

/-- A node gets to hear each node next to it. -/
theorem hello_read {n m : N} (hn : up n) (hm : up m) {d : Delivery} (hd : Adjacent nodes wire n m d) :
    ∃ j ni, ((nodes n).id, ni) ∈ announcedOn (nodes m).interfaces d.heardOn.ifidx ((b.state j).node m) := by
  obtain ⟨f, hf⟩ : ∃ f, discoHello (nodes n).id d.via = some f := by
    rw [discoHello_eq]
    exact ⟨_, rfl⟩
  have hix : f.ifidx = d.via.ifidx := by
    rw [discoHello_eq, Option.some.injEq] at hf
    rw [← hf]
  obtain ⟨j, hj⟩ := hb.link n f m d.heardOn.ifidx hn hm (by rw [hix]; exact hd.wired)
    (hello_sent hb hn hd.channel ⟨d.via, by rw [hix]; exact hd.via, hf⟩) (listens_often hb hm (by rw [hd.heardOn]; rfl))
  obtain ⟨f', hf', hh⟩ := hello_delivery (nodes n).id hd.heardOn
  rw [Delivery.frame, hf, Option.map_some, Option.some.injEq] at hf'
  rw [← hf'] at hh
  exact ⟨j, _, List.mem_filterMap.mpr ⟨_, hj, hh⟩⟩

omit hb in
theorem lookup_hearAll_mem {hs : List (U32 × NeighborInterface)} {id : U32} {ni : NeighborInterface} (h : (id, ni) ∈ hs) :
    (hearAll hs).entries.lookup id ≠ none := by
  obtain ⟨l, l', rfl⟩ := List.append_of_mem h
  have hl : (hearAll (l ++ [(id, ni)])).entries.lookup id ≠ none := by
    have hx : hearAll (l ++ [(id, ni)]) = hear (hearAll l) id ni := by simp [hearAll]
    rw [hx]
    unfold hear
    rw [HashMap.lookup_insert, if_pos rfl]
    exact Option.some_ne_none _
  obtain ⟨x, hx⟩ := Option.ne_none_iff_exists'.mp hl
  obtain ⟨x', hx', -⟩ := hearAll_grows _ l' hx
  rw [List.append_assoc, List.singleton_append] at hx'
  rw [hx']
  exact Option.some_ne_none _

/-- From some time on it lists it. -/
theorem listed {n m : N} (hn : up n) (hm : up m) {d : Delivery} (hd : Adjacent nodes wire n m d) :
    ∃ t, ∀ t', t ≤ t' → ((b.state t').node m).mail.srv.nt.entries.lookup (nodes n).id ≠ none := by
  obtain ⟨j, ni, hj⟩ := hello_read hb hn hm hd
  obtain ⟨t, -, ht⟩ := links_applied (alive hb hm) (fair_own hb hm trivial) j
  refine ⟨t, fun t' htt => ?_⟩
  have hmem := (table_mono (nodeTrace b m) htt).mem (List.mem_filter.mp (ht.mem hj)).1
  rw [receiver_heard (receiving (reach_node (b.reach t') m))]
  exact lookup_hearAll_mem hmem

end

/-! ## Fair runs -/

instance countableTask : Countable Task := by
  let number : Task → Nat
    | .reader k => k.toNat + 7
    | .relay => 0
    | .receiver => 1
    | .discoSender => 2
    | .frameSender => 3
    | .state => 4
    | .cliRelay => 5
    | .prompt => 6
  refine Function.Injective.countable (f := number) fun τ τ' h => ?_
  cases τ <;> cases τ' <;> simp only [number] at h <;>
    first | rfl | omega | exact congrArg Task.reader (BitVec.eq_of_toNat_eq (Nat.add_right_cancel h))

instance countableWord {w : Nat} : Countable (BitVec w) :=
  Function.Injective.countable (f := BitVec.toNat) fun _ _ => BitVec.eq_of_toNat_eq

instance countableFrame : Countable Frame := by
  refine Function.Injective.countable (f := fun f : Frame => (f.ifidx, f.msg)) fun f g h => ?_
  cases f
  cases g
  cases h
  rfl

variable (nodes wire) in
/-- A frame `n` has sent is read by `m`. -/
def Reads (n : N) (f : Frame) (m : N) (k : U32) (s t : World N) : Prop :=
  Step nodes wire m (.reader k) .event s t ∧ (n, f) ∈ s.sent ∧ f.msg ∈ (t.node m).pipe.links k

theorem reads_enabled {s : World N} {n m : N} {f : Frame} {k : U32} (hf : (n, f) ∈ s.sent) (hw : wire n f.ifidx m k)
    (hl : Listens nodes m k s) : Enabled (Reads nodes wire n f m k) s := by
  obtain ⟨i, hi⟩ := Option.isSome_iff_exists.mp hl.1
  refine ⟨_, .read m k f.msg _ (.sent n f hf hw rfl) (.read k i f.msg hi hl.2) rfl, hf, ?_⟩
  simp only [Function.update_self]
  exact List.mem_append_right _ (List.mem_singleton_self _)

variable (nodes wire) in
/-- Every fabric has a fair run. -/
theorem exists_fairRun [Countable N] (up : N → Prop) : ∃ b : Trace nodes wire, FairRun up b := by
  let E : (N × Task) ⊕ N ⊕ (N × Frame × N × U32) → World N → World N → Prop
    | .inl (n, τ) => Step nodes wire n τ .own
    | .inr (.inl n) => Step nodes wire n .discoSender .event
    | .inr (.inr (n, f, m, k)) => Reads nodes wire n f m k
  have hE : ∀ a s t, E a s t → Steps nodes wire s t := by
    rintro (⟨n, τ⟩ | n | ⟨n, f, m, k⟩) s t h
    · exact ⟨n, τ, .own, h⟩
    · exact ⟨n, .discoSender, .event, h⟩
    · exact ⟨m, .reader k, .event, h.1⟩
  have hfair : ∃ b : Trace nodes wire, b.state 0 = init nodes ∧ ∀ a, b.Fair (E a) := Behavior.exists_fair E hE rfl
  obtain ⟨b, -, hb⟩ := hfair
  refine ⟨b, fun n _ τ _ => hb (.inl (n, τ)), fun n _ => hb (.inr (.inl n)), fun n f m k _ _ hw hsent hlisten => ?_⟩
  obtain ⟨j, hj⟩ := hsent 1
  have hsent : ∀ i, j ≤ i → (n, f) ∈ (b.state i).sent := fun i hi =>
    Lts.Behavior.stable (P := fun s : World N => (n, f) ∈ s.sent) (fun s t _ h hs => (sent_mono hs).mem h) hi
      (List.count_pos_iff.mp hj)
  obtain ⟨i, -, -, -, hi⟩ := hb (.inr (.inr (n, f, m, k))) (fun i => by
    obtain ⟨i', hi', hl⟩ := hlisten (max i j)
    exact ⟨i', by omega, reads_enabled (hsent i' (by omega)) hw hl⟩) 0
  exact ⟨i + 1, hi⟩

/-! ## Convergence -/

/-- In a fabric of any finite number of nodes, of which some may stop at any point, and in
    every fair run of it: from some time on the neighbor table of each node that is up
    lists the id of each node up on whose links hellos can get to it; and it lists no id
    but that of a node on whose links they can. -/
theorem converges [Finite N] {up : N → Prop} {b : Trace nodes wire} (hb : FairRun up b) :
    ∃ t, ∀ t', t ≤ t' → ∀ m, up m → ∀ id,
      ((∃ n d, up n ∧ Adjacent nodes wire n m d ∧ (nodes n).id = id) →
        ((b.state t').node m).mail.srv.nt.entries.lookup id ≠ none) ∧
      (((b.state t').node m).mail.srv.nt.entries.lookup id ≠ none →
        ∃ n d, Adjacent nodes wire n m d ∧ (nodes n).id = id) := by
  have hlisted : ∀ p : N × N, ∃ t, (up p.1 ∧ up p.2 ∧ ∃ d, Adjacent nodes wire p.1 p.2 d) → ∀ t', t ≤ t' →
      ((b.state t').node p.2).mail.srv.nt.entries.lookup (nodes p.1).id ≠ none := by
    intro p
    by_cases hd : up p.1 ∧ up p.2 ∧ ∃ d, Adjacent nodes wire p.1 p.2 d
    · obtain ⟨hn, hm, d, hd⟩ := hd
      obtain ⟨t, ht⟩ := listed hb hn hm hd
      exact ⟨t, fun _ => ht⟩
    · exact ⟨0, fun h => absurd h hd⟩
  choose time htime using hlisted
  obtain ⟨t, ht⟩ := Finite.exists_le time
  refine ⟨t, fun t' htt m hm id => ⟨?_, fun hne => ?_⟩⟩
  · rintro ⟨n, d, hn, hd, rfl⟩
    exact htime (n, m) ⟨hn, hm, d, hd⟩ t' ((ht (n, m)).trans htt)
  · by_contra hno
    push Not at hno
    rw [receiver_heard (receiving (reach_node (b.reach t') m))] at hne
    refine hne (lookup_hearAll fun x hx hid => ?_)
    obtain ⟨n, d, hd, hn, -⟩ := applied_adjacent (b.reach t') m x hx
    exact hno n d hd (hn.symm.trans hid)

theorem converges_two : ∃ (b : Trace twoNodes oneWire) (t : Nat), ∀ t', t ≤ t' →
    ((b.state t').node true).mail.srv.nt.entries.lookup 7 ≠ none := by
  obtain ⟨b, hb⟩ := exists_fairRun twoNodes oneWire fun _ => True
  obtain ⟨t, ht⟩ := converges hb
  exact ⟨b, t, fun t' htt => (ht t' htt true trivial 7).1
    ⟨false, ⟨eth1, eth1⟩, trivial, ⟨rfl, oneLink_eth1, oneLink_eth1, by decide, rfl, rfl⟩, rfl⟩⟩

end FabricRs.Fabric

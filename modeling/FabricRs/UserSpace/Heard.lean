/-
  FabricRs.UserSpace.Heard — how far the hellos have come (`UserSpace::receiver`).

  Each hello the receiver takes ends in one add, so the adds the actor has served count the
  hellos that are in the table: the first of those taken, in order (`applied`).

  - `receiver_heard`: the neighbor table is what handling these alone leaves.
  - `listings_grow`: each listing of the neighbors shows what the first hellos leave, and a
    later one shows those of more hellos: no neighbor, and none of its MACs, goes away.
-/

import FabricRs.Lib.MailboxLive
import FabricRs.UserSpace.Receiver

namespace FabricRs.UserSpace

open State
open Mailbox (Prog Req Runs Reach Step Agent Known ord)
open Function (update)

variable {interfaces : Interfaces} {cli : Nat → Bool} {lpmTrie : LpmTrie}

/-! ## The hellos in the table -/

variable (interfaces) in
/-- The hellos the receiver has taken. -/
def hellos (s : Sys) : List (U32 × NeighborInterface) := (s.loc 0).seen.filterMap (hello interfaces)

variable (interfaces) in
/-- Those whose add the actor has served. -/
def applied (s : Sys) : List (U32 × NeighborInterface) := (hellos interfaces s).take (writesOf (served s)).length

/-- Queued or served, a write is the receiver's. -/
theorem writes_receiver {s : Sys} (h : Receiving interfaces cli lpmTrie s) {r : Req StateCommand}
    (hr : r ∈ writesOf (ord s)) : r.who = 0 := by
  obtain ⟨hr, hw⟩ := List.mem_filter.mp hr
  have hc := Mailbox.calls (program_calls interfaces (receiverKind cli) NotNeighbors) h r ((Mailbox.ids h).ord r hr)
  unfold Calls at hc
  by_contra h0
  cases he : receiverKind cli r.who with
  | handler => exact h0 (receiverKind_handler.mp he)
  | stateClient =>
    simp only [he] at hc
    exact absurd (hw.symm.trans hc) (by decide)
  | cliClient =>
    simp only [he] at hc
    obtain ⟨tt, hc⟩ := hc
    rw [hc] at hw
    cases hw

/-- The acts behind writes of the receiver are hellos. -/
theorem hello_of_matches {s : Sys} {acts : List Act} {l : List (Req StateCommand)}
    (h : List.Forall₂ (Matches (receiverKind cli) s) acts l) (hl : ∀ r ∈ l, r.who = 0) :
    ∀ a ∈ acts, ∃ id ni, a = .hello 0 id ni := by
  induction h with
  | nil => simp
  | @cons a r acts l hm _ ih =>
    refine List.forall_mem_cons.mpr ⟨?_, ih fun x hx => hl x (List.mem_cons_of_mem _ hx)⟩
    have h0 := hl r List.mem_cons_self
    cases a with
    | hello c id ni => exact ⟨id, ni, by rw [← hm.2.1, h0]⟩
    | call c cmd => exact absurd (receiverKind_handler.mpr (hm.2.1 ▸ h0)) hm.1

/-- Such acts and their hellos go together one by one. -/
theorem take_helloOf {acts : List Act} (h : ∀ a ∈ acts, ∃ id ni, a = .hello 0 id ni) (n : Nat) :
    (acts.take n).filterMap (Act.helloOf 0) = (acts.filterMap (Act.helloOf 0)).take n := by
  induction acts generalizing n with
  | nil => simp
  | cons a acts ih =>
    obtain ⟨id, ni, rfl⟩ := h a List.mem_cons_self
    cases n with
    | zero => rfl
    | succ n =>
      rw [List.take_succ_cons, List.filterMap_cons, List.filterMap_cons, ih fun x hx => h x (List.mem_cons_of_mem _ hx)]
      rfl

theorem length_helloOf {acts : List Act} (h : ∀ a ∈ acts, ∃ id ni, a = .hello 0 id ni) :
    (acts.filterMap (Act.helloOf 0)).length = acts.length := by
  rw [List.length_filterMap_eq_countP, List.countP_eq_length]
  intro a ha
  obtain ⟨id, ni, rfl⟩ := h a ha
  rfl

/-- The turns of the receiver, one for each write, are its hellos in order. -/
theorem receiver_acts {s : Sys} (h : Receiving interfaces cli lpmTrie s) :
    ∃ acts, List.Forall₂ (Matches (receiverKind cli) s) acts (writesOf (ord s)) ∧
      (∀ a ∈ acts, ∃ id ni, a = .hello 0 id ni) ∧
      acts.filterMap (Act.helloOf 0) = (hellos interfaces s).take (writesOf (ord s)).length ∧
      (writesOf (ord s)).length ≤ (hellos interfaces s).length ∧
      ((s.loc 0).handler = .idle → (writesOf (ord s)).length = (hellos interfaces s).length) := by
  obtain ⟨acts, hm, hat⟩ := inv h
  have hall := hello_of_matches hm fun r hr => writes_receiver h hr
  have hlen : (acts.filterMap (Act.helloOf 0)).length = (writesOf (ord s)).length :=
    (length_helloOf hall).trans hm.length_eq
  have hpre : acts.filterMap (Act.helloOf 0) <+: hellos interfaces s ∧
      ((s.loc 0).handler = .idle → acts.filterMap (Act.helloOf 0) = hellos interfaces s) := by
    unfold hellos
    cases hat 0 rfl with
    | idle _ _ he => exact ⟨by rw [he], fun _ => he⟩
    | get fs f id ni hs _ he hh _ _ =>
      refine ⟨by rw [he, hs, List.filterMap_append]; exact List.prefix_append _ _, fun hi => ?_⟩
      rw [hi] at hh
      cases hh
    | add fs f id ni o hs _ he hh _ _ =>
      refine ⟨by rw [he, hs, List.filterMap_append]; exact List.prefix_append _ _, fun hi => ?_⟩
      rw [hi] at hh
      cases hh
  refine ⟨acts, hm, hall, ?_, ?_, fun hi => ?_⟩
  · rw [← hlen]
    exact List.prefix_iff_eq_take.mp hpre.1
  · rw [← hlen]
    exact hpre.1.length_le
  · rw [← hlen, hpre.2 hi]

/-- After the commands `l` the neighbor table is what as many hellos leave as `l` has
    writes. -/
theorem heard_after {s : Sys} (h : Receiving interfaces cli lpmTrie s) {l rest : List (Req StateCommand)}
    (hl : served s = l ++ rest) :
    neighborsAfter (l.map (·.call)) = hearAll ((hellos interfaces s).take (writesOf l).length) := by
  obtain ⟨acts, hm, hall, hacts, -, -⟩ := receiver_acts h
  have hord : writesOf (ord s) = writesOf l ++ writesOf (rest ++ s.q.buf) := by
    rw [ord]
    show writesOf (served s ++ s.q.buf) = _
    rw [hl, List.append_assoc]
    exact List.filter_append _ _
  rw [hord] at hm hacts
  have h1 := List.forall₂_take_append _ _ _ hm
  have halone := alone_prefix h (receiver_undisturbed h) l rest hl h1
  rw [halone, alone_eq fun a ha => hall a (List.mem_of_mem_take ha)]
  rw [take_helloOf hall, hacts, List.take_take, List.length_append, Nat.min_eq_left (Nat.le_add_right _ _)]

theorem receiver_heard {s : Sys} (h : Receiving interfaces cli lpmTrie s) : s.srv.nt = hearAll (applied interfaces s) := by
  rw [applied, ← heard_after h (List.append_nil _).symm, runs_nt (Mailbox.hist h).runs, served, List.map_map, List.map_map]
  rfl

theorem writes_served_le (s : Sys) : (writesOf (served s)).length ≤ (writesOf (ord s)).length := by
  show (writesOf (served s)).length ≤ (writesOf (served s ++ s.q.buf)).length
  unfold writesOf
  rw [List.filter_append, List.length_append]
  exact Nat.le_add_right _ _

/-- The hellos in the table stay in it, others come behind them. -/
theorem applied_mono {s t : Sys} (h : Receiving interfaces cli lpmTrie s) (hh : hellos interfaces s <+: hellos interfaces t)
    (hserved : served s <+: served t) : applied interfaces s <+: applied interfaces t := by
  obtain ⟨-, -, -, -, hle, -⟩ := receiver_acts h
  have hw : (writesOf (served s)).length ≤ (writesOf (served t)).length := (hserved.filter _).length_le
  obtain ⟨l, hl⟩ := hh
  unfold applied
  rw [← hl, ← List.take_append_of_le_length ((writes_served_le s).trans hle)]
  exact List.take_prefix_take_left hw

section

variable {kind : Nat → Kind} {foreign : StateCommand → Prop}

/-- What a task has taken stays. -/
theorem step_seen {a : Agent} {s t : Sys} (h : Step (server lpmTrie) (program interfaces kind foreign) a s t) (d : Nat) :
    (s.loc d).seen <+: (t.loc d).seen := by
  have hup : ∀ e l, (s.loc e).seen <+: l.seen → (s.loc d).seen <+: (update s.loc e l d).seen := by
    intro e l hl
    by_cases hd : d = e
    · rw [hd, Function.update_self]
      exact hl
    · rw [Function.update_of_ne hd]
  have hret : ∀ e cmd v, (s.loc e).seen <+: ((program interfaces kind foreign).ret e (s.loc e) cmd v).seen := by
    intro e cmd v
    by_cases hk : kind e = .handler
    · rw [program_ret_handler hk]
    · rw [program_ret_client hk]
  cases h with
  | tau e l _ hl =>
    obtain ⟨-, -, f, rfl⟩ := hl
    exact hup e _ (List.prefix_append _ _)
  | post e r q' _ _ _ _ => exact hup e _ (hret e r.call none)
  | recv e r v _ _ => exact hup e _ (hret e r.call (some v))
  | _ => exact List.prefix_refl _

variable (b : Mailbox.Trace (server lpmTrie) (program interfaces kind foreign) stateCap cliCap)

/-- The hellos the receiver has taken stay, and so do those in the table. -/
theorem hellos_along {n m : Nat} (hm : n ≤ m) : hellos interfaces (b.state n) <+: hellos interfaces (b.state m) :=
  Lts.Behavior.stable (P := fun s : Sys => hellos interfaces (b.state n) <+: hellos interfaces s)
    (fun _ _ _ h ⟨_, hs⟩ => h.trans ((step_seen hs 0).filterMap _)) hm (List.prefix_refl _)

theorem applied_along (hr : ∀ n, Receiving interfaces cli lpmTrie (b.state n)) {n m : Nat} (hm : n ≤ m) :
    applied interfaces (b.state n) <+: applied interfaces (b.state m) := by
  exact applied_mono (hr n) (hellos_along b hm) ((Mailbox.log_mono b hm).map _)

end

/-! ## Listings -/

/-- `kvs` lists, in some order, what the hellos `hs` leave. -/
def Shows (hs : List (U32 × NeighborInterface)) (kvs : List KeyValue) : Prop :=
  ∃ l, (hearAll hs).entries.Lists l ∧ kvs = l.map fun e => .neighbor e.1 e.2

theorem Shows.mem {hs : List (U32 × NeighborInterface)} {kvs : List KeyValue} (h : Shows hs kvs) {id : U32} {n : Neighbor} :
    .neighbor id n ∈ kvs ↔ (hearAll hs).entries.lookup id = some n := by
  obtain ⟨l, hl, rfl⟩ := h
  rw [← hl.mem, List.mem_map]
  refine ⟨fun ⟨e, he, hk⟩ => ?_, fun h => ⟨_, h, rfl⟩⟩
  injection hk with h1 h2
  rw [← h1, ← h2]
  exact he

theorem shows_of_lists {s : Tables} {hs : List (U32 × NeighborInterface)} (h : s.nt = hearAll hs) {kvs : List KeyValue}
    (hl : s.Lists .neighborTable kvs) : Shows hs kvs := by
  obtain ⟨l, hl, rfl⟩ := hl
  refine ⟨l.map fun e => (e.1.id, e.2.neighbor), ?_, by rw [List.map_map]; rfl⟩
  rw [← h]
  exact hl

/-- What is heard adds neighbors, and interfaces of them, and takes none away. -/
theorem hearAll_grows (hs hs' : List (U32 × NeighborInterface)) {id : U32} {n : Neighbor}
    (h : (hearAll hs).entries.lookup id = some n) :
    ∃ n', (hearAll (hs ++ hs')).entries.lookup id = some n' ∧ ∀ mac ∈ n.interfaces, mac ∈ n'.interfaces := by
  induction hs' using List.reverseRecOn with
  | nil => exact ⟨n, by rw [List.append_nil, h], fun _ hm => hm⟩
  | append_singleton hs' x ih =>
    obtain ⟨n', hn, hi⟩ := ih
    have hx : hearAll (hs ++ (hs' ++ [x])) = hear (hearAll (hs ++ hs')) x.1 x.2 := by
      rw [← List.append_assoc]
      simp [hearAll]
    rw [hx]
    unfold hear
    rw [HashMap.lookup_insert]
    by_cases e : id = x.1
    · rw [if_pos e, ← e, hn]
      exact ⟨_, rfl, fun mac hm => Finmap.mem_insert.mpr (Or.inr (hi mac hm))⟩
    · rw [if_neg e]
      exact ⟨n', hn, hi⟩

/-- So a list that shows more hellos shows all that one of the first of them does. -/
theorem Shows.grows {hs hs' : List (U32 × NeighborInterface)} {kvs kvs' : List KeyValue} (h : Shows hs kvs)
    (h' : Shows hs' kvs') (hpre : hs <+: hs') (id : U32) (n : Neighbor) (hn : .neighbor id n ∈ kvs) :
    ∃ n', .neighbor id n' ∈ kvs' ∧ ∀ mac ∈ n.interfaces, mac ∈ n'.interfaces := by
  obtain ⟨l, rfl⟩ := hpre
  obtain ⟨n', hn', hi⟩ := hearAll_grows _ l (h.mem.mp hn)
  exact ⟨n', h'.mem.mpr hn', hi⟩

/-- A listing shows the hellos whose adds were served before it. -/
theorem listing_shows {s : Sys} (h : Receiving interfaces cli lpmTrie s) {l1 l2 : Log} {r : Req StateCommand}
    {kvs : List KeyValue} (hlog : s.log = l1 ++ (r, some (.list kvs)) :: l2) (hc : r.call = .list .neighborTable) :
    Shows ((hellos interfaces s).take (writesOf (l1.map (·.1))).length) kvs := by
  have hruns := (Mailbox.hist h).runs
  rw [hlog, List.map_append, List.map_cons] at hruns
  obtain ⟨u, w, hu, hsv⟩ := hruns.split
  have hnt : u.nt = hearAll ((hellos interfaces s).take (writesOf (l1.map (·.1))).length) := by
    have hserved : served s = l1.map (·.1) ++ r :: l2.map (·.1) := by rw [served, hlog, List.map_append, List.map_cons]
    rw [← heard_after h hserved, runs_nt hu, List.map_map, List.map_map]
    rfl
  rw [hc] at hsv
  cases hsv with
  | list _ _ hl => exact shows_of_lists hnt hl

/-- Two listings of the neighbors, one served before the other: each shows what hellos on
    the wire leave, the first ones taken, and the later one those of the first and maybe
    more. So what the first shows stays: each neighbor, with each MAC it had. -/
theorem listings_grow {s : Sys} (h : Receiving interfaces cli lpmTrie s) {l1 l2 l3 : Log} {r r' : Req StateCommand}
    {kvs kvs' : List KeyValue} (hlog : s.log = l1 ++ (r, some (.list kvs)) :: l2 ++ (r', some (.list kvs')) :: l3)
    (hc : r.call = .list .neighborTable) (hc' : r'.call = .list .neighborTable) :
    ∃ hs hs', hs <+: hs' ∧ hs' <+: (s.loc 0).seen.filterMap (hello interfaces) ∧ Shows hs kvs ∧ Shows hs' kvs' ∧
      ∀ id n, .neighbor id n ∈ kvs → ∃ n', .neighbor id n' ∈ kvs' ∧ ∀ mac ∈ n.interfaces, mac ∈ n'.interfaces := by
  have hlog' : s.log = l1 ++ (r, some (.list kvs)) :: (l2 ++ (r', some (.list kvs')) :: l3) := by
    rw [hlog, List.append_assoc, List.cons_append]
  have h1 := listing_shows h hlog' hc
  have h2 := listing_shows h hlog hc'
  have hw : (writesOf (l1.map (·.1))).length ≤ (writesOf ((l1 ++ (r, some (.list kvs)) :: l2).map (·.1))).length := by
    rw [List.map_append]
    exact ((List.prefix_append _ _).filter _).length_le
  have hpre := List.take_prefix_take_left (l := hellos interfaces s) hw
  exact ⟨_, _, hpre, List.take_prefix _ _, h1, h2, h1.grows h2 hpre⟩

/-- After one hello its node is listed. -/
theorem heard_listed {s : Tables} (h : s.nt = receive oneLink .new (helloFrame 1 7 0x0a00000b mac1)) {kvs : List KeyValue}
    (hl : s.Lists .neighborTable kvs) : .neighbor 7 (Neighbor.new.addInterface (heard mac1)) ∈ kvs := by
  rw [receive_heard] at h
  have hs : Shows [(7, heard mac1)] kvs := shows_of_lists h hl
  rw [hs.mem]
  rfl

/-- A hello is handled and the neighbors listed, then another hello of the node and another
    listing: it shows the first one's MAC still. -/
theorem listings_grow_two : ∃ (s : Sys) (r r' : Req StateCommand) (l1 l2 : Log) (kvs kvs' : List KeyValue),
    s.log = l1 ++ (r, some (.list kvs)) :: l2 ++ [(r', some (.list kvs'))] ∧
    .neighbor 7 (Neighbor.new.addInterface (heard mac1)) ∈ kvs ∧
    ∃ hs hs', hs <+: hs' ∧ hs' <+: (s.loc 0).seen.filterMap (hello oneLink) ∧ Shows hs kvs ∧ Shows hs' kvs' ∧
      ∀ id n, .neighbor id n ∈ kvs → ∃ n', .neighbor id n' ∈ kvs' ∧ ∀ mac ∈ n.interfaces, mac ∈ n'.interfaces := by
  have h0 : Receiving oneLink (fun _ => false) noRoutes
      (Mailbox.init (server noRoutes) (program oneLink (receiverKind fun _ => false) NotNeighbors) : Sys) := .init rfl
  have hlist : NotNeighbors (.list .neighborTable) := rfl
  obtain ⟨s1, h1, hnt1, hq1, hpc1, hloc1, -⟩ := handle_one h0 rfl rfl rfl (helloFrame 1 7 0x0a00000b mac1)
  obtain ⟨kvs, hkvs⟩ := s1.srv.exists_lists .neighborTable
  obtain ⟨s2, h2, -, hq2, hpc2, hloc2, hlog2⟩ :=
    foreign_turn h1 (c := 1) rfl hq1 (by rw [hpc1]; rfl) hlist (Serve.list _ _ _ hkvs)
  obtain ⟨s3, h3, -, hq3, hpc3, -, l2, hlog3⟩ := handle_one h2 hq2 (by rw [hpc2, hpc1]; rfl) (by rw [hloc2, hloc1]; rfl)
    (helloFrame 1 7 0x0a00000b mac2)
  obtain ⟨kvs', hkvs'⟩ := s3.srv.exists_lists .neighborTable
  obtain ⟨s4, h4, -, -, -, -, hlog4⟩ :=
    foreign_turn h3 (c := 1) rfl hq3 (by rw [hpc3, hpc2, hpc1]; rfl) hlist (Serve.list _ _ _ hkvs')
  rw [← hlog3, hlog2, List.append_assoc s1.log, List.singleton_append] at hlog4
  exact ⟨s4, _, _, s1.log, l2, kvs, kvs', hlog4, heard_listed hnt1 hkvs, listings_grow h4 hlog4 rfl rfl⟩

end FabricRs.UserSpace

/-
  FabricRs.UserSpace.Discovery — `disco_sender`'s hellos at a receiver: another node's and
  the sender's own.

  A hello never fills in the MAC of its header (`discoHello_eq`), so at the receiver every
  interface of a node is entered under the MAC zero, the last one heard over the others.
  Nor does the receiver look at who sent a frame: a node that hears its own hello enters
  itself.

  - `entry_deliverAll`: what a receiver holds of a sender after any deliveries.
  - `discovery_faithful_iff`: that is what was sent only if every interface heard has the
    MAC zero.
  - `own_neighbor_iff`: a node stays out of its own table exactly as long as it hears no
    copy of its hellos.
-/

import FabricRs.UserSpace.Receiver

namespace FabricRs.UserSpace

open State

/-! ## Another node's hellos -/

/-- A hello sent on one node's interface `via`, heard on another's interface `at`. -/
structure Delivery where
  via : Interface
  heardOn : Interface
  deriving DecidableEq

/-- The frame that arrives. -/
def Delivery.frame (id : U32) (d : Delivery) : Option Frame :=
  (discoHello id d.via).map fun f => ⟨d.heardOn.ifidx, f.msg⟩

/-- What a delivery should enter under the sender's id. -/
def Delivery.interface (d : Delivery) : NeighborInterface :=
  ⟨d.via.ip.toU32, d.via.mac, d.heardOn.ip.toU32, d.heardOn.mac, d.heardOn.ifidx⟩

def deliverAll (id : U32) (ds : List Delivery) : List Frame := ds.filterMap (Delivery.frame id)

/-- The deliveries from one node's interfaces to another's. -/
def Between (sender receiver : Interfaces) (ds : List Delivery) : Prop :=
  ∀ d ∈ ds, sender.get d.via.ifidx = some d.via ∧ receiver.get d.heardOn.ifidx = some d.heardOn

/-- Pairwise distinct MACs. -/
def DistinctMacs (sender : Interfaces) : Prop :=
  ∀ i j, sender.get i.ifidx = some i → sender.get j.ifidx = some j → i.mac = j.mac → i = j

/-- Under the sender's id `t` has exactly an entry for each of its interfaces heard: keyed
    by that interface's MAC, with its addresses, and those of the interface the last of its
    hellos was heard on. -/
def Faithful (id : U32) (ds : List Delivery) (t : NeighborTable) : Prop :=
  ∀ mac e, entry t id mac = some e ↔
    ∃ pre d post, ds = pre ++ d :: post ∧ d.via.mac = mac ∧ e = d.interface ∧ ∀ d' ∈ post, d'.via ≠ d.via

theorem hello_delivery {receiver : Interfaces} (id : U32) {d : Delivery}
    (h : receiver.get d.heardOn.ifidx = some d.heardOn) :
    ∃ f, d.frame id = some f ∧ hello receiver f = some (id, { d.interface with neighborMac := MacAddr.zero }) := by
  obtain ⟨sent, hs, -, hw⟩ := discoHello_isHello id d.via
  have hf : d.frame id = some ⟨d.heardOn.ifidx, sent.msg⟩ := by
    unfold Delivery.frame
    rw [hs, Option.map_some]
  exact ⟨_, hf, hello_of_wire (f := ⟨d.heardOn.ifidx, sent.msg⟩) hw h⟩

/-- Whatever was heard, one entry: the last hello's, under the MAC zero. -/
theorem entry_deliverAll {sender receiver : Interfaces} {id : U32} {ds : List Delivery} (h : Between sender receiver ds)
    {mac : MacAddr} {e : NeighborInterface} : entry (receiveAll receiver (deliverAll id ds)) id mac = some e ↔
      mac = MacAddr.zero ∧ ∃ pre d, ds = pre ++ [d] ∧ e = { d.interface with neighborMac := MacAddr.zero } := by
  induction ds using List.reverseRecOn with
  | nil =>
    constructor
    · intro he; cases he
    · intro ⟨_, pre, d, hd, _⟩; simp at hd
  | append_singleton ds d ih =>
    have ih := ih fun d' hd' => h d' (List.mem_append_left _ hd')
    obtain ⟨f, hf, hh⟩ := hello_delivery id (h d (by simp)).2
    have hall : deliverAll id (ds ++ [d]) = deliverAll id ds ++ [f] := by simp [deliverAll, hf]
    rw [hall, receiveAll_snoc]
    unfold receive
    rw [hh]
    show entry (hear _ id _) (id, mac).1 (id, mac).2 = some e ↔ _
    rw [entry_hear]
    by_cases hm : mac = MacAddr.zero
    · rw [if_pos (by rw [hm]), Option.some.injEq]
      refine ⟨fun he => ?_, fun ⟨_, pre, d', hd, he⟩ => ?_⟩
      · exact ⟨hm, ds, d, rfl, he.symm⟩
      · obtain ⟨-, hd⟩ := List.append_inj' hd rfl
        cases hd
        exact he.symm
    · rw [if_neg fun ek => hm (congrArg Prod.snd ek)]
      refine ⟨fun he => ?_, fun he => ?_⟩
      · exact absurd (ih.mp he).1 hm
      · exact absurd he.1 hm

theorem faithful_deliverAll {sender receiver : Interfaces} {id : U32} {ds : List Delivery} (h : Between sender receiver ds)
    (hmacs : DistinctMacs sender) :
    Faithful id ds (receiveAll receiver (deliverAll id ds)) ↔ ∀ d ∈ ds, d.via.mac = MacAddr.zero := by
  constructor
  · intro hf d hd
    obtain ⟨pre, d', post, hds, hv, hp⟩ := LastWrite.exists_last (p := fun x : Delivery => x.via = d.via) ⟨d, hd, rfl⟩
    have he := (hf d.via.mac d'.interface).mpr ⟨pre, d', post, hds, by rw [hv], rfl, fun x hx => by rw [hv]; exact hp x hx⟩
    exact ((entry_deliverAll h).mp he).1
  · intro hz mac e
    rw [entry_deliverAll h]
    -- one MAC is one interface: the last delivery is the last of each
    have hone : ∀ d ∈ ds, ∀ d' ∈ ds, d.via = d'.via := fun d hd d' hd' =>
      hmacs _ _ (h d hd).1 (h d' hd').1 (by rw [hz d hd, hz d' hd'])
    have hint : ∀ d ∈ ds, { d.interface with neighborMac := MacAddr.zero } = d.interface := by
      intro d hd
      unfold Delivery.interface
      rw [hz d hd]
    refine ⟨fun ⟨hm, pre, d, hds, he⟩ => ?_, fun ⟨pre, d, post, hds, hm, he, hp⟩ => ?_⟩
    · have hd : d ∈ ds := by rw [hds]; simp
      exact ⟨pre, d, [], hds, by rw [hm, hz d hd], by rw [he, hint d hd], by simp⟩
    · have hd : d ∈ ds := by rw [hds]; simp
      have hnil : post = [] := List.eq_nil_iff_forall_not_mem.mpr fun d' hd' =>
        hp d' hd' (hone d' (by rw [hds]; simp [hd']) d hd)
      subst hnil
      exact ⟨by rw [← hm, hz d hd], pre, d, hds, by rw [he, hint d hd]⟩

/-- After any deliveries between two nodes the receiver's table is faithful exactly if
    every interface heard has the MAC zero. -/
theorem discovery_faithful_iff {sender receiver : Interfaces} {cli : Nat → Bool} {lpmTrie : LpmTrie} {id : U32}
    {ds : List Delivery} {s : Sys} (h : Receiving receiver cli lpmTrie s) (hd : Drained s)
    (hseen : (s.loc 0).seen = deliverAll id ds) (hb : Between sender receiver ds) (hmacs : DistinctMacs sender) :
    Faithful id ds s.srv.nt ↔ ∀ d ∈ ds, d.via.mac = MacAddr.zero := by
  rw [receiver_table h hd, hseen]
  exact faithful_deliverAll hb hmacs

/-- Two links between two nodes. -/
def eth2 : Interface := ⟨2, ⟨10, 0, 1, 1⟩, mac1⟩
def eth3 : Interface := ⟨3, ⟨10, 0, 2, 1⟩, mac2⟩
def twoLinks : Interfaces := (Interfaces.empty.insert eth2).insert eth3
def parallel : List Delivery := [⟨eth2, eth1⟩, ⟨eth3, eth1⟩]

theorem twoLinks_get {i : Interface} (h : twoLinks.get i.ifidx = some i) : i = eth2 ∨ i = eth3 := by
  unfold twoLinks at h
  rw [Interfaces.get_insert] at h
  split at h
  · exact Or.inr (Option.some.inj h).symm
  · rw [Interfaces.get_insert] at h
    split at h
    · exact Or.inl (Option.some.inj h).symm
    · cases h

theorem twoLinks_distinct : DistinctMacs twoLinks := by
  intro i j hi hj hm
  rcases twoLinks_get hi with rfl | rfl <;> rcases twoLinks_get hj with rfl | rfl
  · rfl
  · cases hm
  · cases hm
  · rfl

theorem parallel_between : Between twoLinks oneLink parallel := by
  intro d hd
  have h2 : twoLinks.get eth2.ifidx = some eth2 := by
    rw [twoLinks, Interfaces.get_insert, if_neg (by decide), Interfaces.get_insert, if_pos rfl]
  have h3 : twoLinks.get eth3.ifidx = some eth3 := by rw [twoLinks, Interfaces.get_insert, if_pos rfl]
  have h1 : oneLink.get eth1.ifidx = some eth1 := by rw [oneLink, Interfaces.get_insert, if_pos rfl]
  rcases List.mem_cons.mp hd with rfl | hd
  · exact ⟨h2, h1⟩
  · rw [List.mem_singleton.mp hd]
    exact ⟨h3, h1⟩

/-- Of two parallel links one entry is left, under no interface's MAC. -/
theorem parallel_links_merged : ∃ s : Sys, Receiving oneLink (fun _ => false) noRoutes s ∧ Drained s ∧
    (s.loc 0).seen = deliverAll 7 parallel ∧ Between twoLinks oneLink parallel ∧ DistinctMacs twoLinks ∧
    ¬ Faithful 7 parallel s.srv.nt := by
  obtain ⟨s, h, hq, -, hloc⟩ := handle_all oneLink (fun _ => false) noRoutes (deliverAll 7 parallel)
  have hd : Drained s := ⟨by rw [hloc], by rw [hq]; simp⟩
  refine ⟨s, h, hd, by rw [hloc], parallel_between, twoLinks_distinct, fun hf => ?_⟩
  rw [receiver_table h hd, hloc] at hf
  have hz := (faithful_deliverAll parallel_between twoLinks_distinct).mp hf ⟨eth2, eth1⟩ (by simp [parallel])
  exact absurd hz (by decide)

theorem discovery_faithful_iff_parallel : ∃ s : Sys, (s.loc 0).seen = deliverAll 7 parallel ∧
    (Faithful 7 parallel s.srv.nt ↔ ∀ d ∈ parallel, d.via.mac = MacAddr.zero) := by
  obtain ⟨s, h, hq, -, hloc⟩ := handle_all oneLink (fun _ => false) noRoutes (deliverAll 7 parallel)
  exact ⟨s, by rw [hloc], discovery_faithful_iff h ⟨by rw [hloc], by rw [hq]; simp⟩ (by rw [hloc]) parallel_between
    twoLinks_distinct⟩

/-! ## A node's own hellos -/

/-- A copy of a hello of the node itself, heard on one of its interfaces. -/
def OwnCopy (id : U32) (interfaces : Interfaces) (f : Frame) : Prop :=
  ∃ i sent, interfaces.get i.ifidx = some i ∧ discoHello id i = some sent ∧ f.msg = sent.msg ∧
    (interfaces.get f.ifidx).isSome

/-- What a node may hear: others' hellos, frames of other protocols, its own hellos. -/
inductive Traffic (id : U32) (interfaces : Interfaces) (f : Frame) : Prop
  | other (id' ip : U32) (mac : MacAddr) : id' ≠ id → IsHello f id' ip mac → Traffic id interfaces f
  | nonDisco : (∀ p, EthernetPacket.new f.msg = some p → p.getEthertype ≠ 0x0060) → Traffic id interfaces f
  | own : OwnCopy id interfaces f → Traffic id interfaces f

theorem hello_own {id : U32} {interfaces : Interfaces} {f : Frame} (h : OwnCopy id interfaces f) :
    ∃ ni, hello interfaces f = some (id, ni) := by
  obtain ⟨i, sent, -, hs, hm, hc⟩ := h
  obtain ⟨j, hj⟩ := Option.isSome_iff_exists.mp hc
  obtain ⟨sent', hs', -, dst, src, rest, hw⟩ := discoHello_isHello id i
  rw [hs, Option.some.injEq] at hs'
  subst hs'
  exact ⟨_, hello_of_wire ⟨dst, src, rest, hm.trans hw⟩ hj⟩

/-- Of all it may hear only its own hellos announce its id. -/
theorem own_of_hello {id : U32} {interfaces : Interfaces} {f : Frame} (h : Traffic id interfaces f)
    {ni : NeighborInterface} (hh : hello interfaces f = some (id, ni)) : OwnCopy id interfaces f := by
  cases h with
  | other id' ip mac hne hw =>
    obtain ⟨ip', mac', i, -, hi, -⟩ := hello_iff.mp hh
    rw [hello_of_wire hw hi] at hh
    cases hh
    exact absurd rfl hne
  | nonDisco hn =>
    obtain ⟨ip, mac, i, ⟨dst, src, rest, hm⟩, -, -⟩ := hello_iff.mp hh
    obtain ⟨p, hp, ht, -⟩ := EthernetPacket.new_enc dst src 0x0060 (DiscoHdrPacket.hdr.enc (id, ip, mac, 0) ++ rest)
    rw [← hm] at hp
    exact absurd ht (hn p hp)
  | own h => exact h

theorem lookup_hearAll {hs : List (U32 × NeighborInterface)} {id : U32} (h : ∀ x ∈ hs, x.1 ≠ id) :
    (hearAll hs).entries.lookup id = none := by
  induction hs using List.reverseRecOn with
  | nil => rfl
  | append_singleton hs x ih =>
    have hx : hearAll (hs ++ [x]) = hear (hearAll hs) x.1 x.2 := by simp [hearAll]
    rw [hx]
    unfold hear
    rw [HashMap.lookup_insert, if_neg (Ne.symm (h x (by simp))), ih fun y hy => h y (List.mem_append_left _ hy)]

/-- While a node handles `fs`, its own id is in its table in no state exactly if `fs` has no
    copy of its own hellos. -/
theorem own_neighbor_iff {id : U32} {interfaces : Interfaces} {cli : Nat → Bool} {lpmTrie : LpmTrie} {fs : List Frame}
    (hfs : ∀ f ∈ fs, Traffic id interfaces f) :
    (∀ s, Receiving interfaces cli lpmTrie s → (s.loc 0).seen <+: fs → s.srv.nt.entries.lookup id = none) ↔
      ∀ f ∈ fs, ¬ OwnCopy id interfaces f := by
  constructor
  · intro h f hf hown
    obtain ⟨pre, post, rfl⟩ := List.append_of_mem hf
    obtain ⟨s, hs, hq, -, hloc⟩ := handle_all interfaces cli lpmTrie (pre ++ [f])
    have hnone := h s hs (by rw [hloc]; exact ⟨post, by simp⟩)
    obtain ⟨ni, hh⟩ := hello_own hown
    rw [receiver_table hs ⟨by rw [hloc], by rw [hq]; simp⟩, hloc, receiveAll_snoc] at hnone
    unfold receive at hnone
    rw [hh] at hnone
    unfold hear at hnone
    simp only [HashMap.lookup_insert, if_true, reduceCtorEq] at hnone
  · intro h s hs hpre
    obtain ⟨hs', hnt, hpre'⟩ := receiver_prefix hs
    rw [hnt]
    refine lookup_hearAll fun x hx he => ?_
    obtain ⟨f, hf, hh⟩ := List.mem_filterMap.mp (hpre'.mem hx)
    have hmem := hpre.mem hf
    have hh' : hello interfaces f = some (id, x.2) := by rw [hh, ← he]
    exact h f hmem (own_of_hello (hfs f hmem) hh')

/-- The node 7 hears its own hello: it is its own neighbor. -/
theorem own_hello_enters_itself :
    ∃ (s : Sys) (f : Frame), Receiving oneLink (fun _ => false) noRoutes s ∧ (s.loc 0).seen = [f] ∧
      Traffic 7 oneLink f ∧ s.srv.nt.entries.lookup 7 ≠ none := by
  obtain ⟨f, hf, hix, -⟩ := discoHello_isHello 7 eth1
  have h1 : oneLink.get eth1.ifidx = some eth1 := by rw [oneLink, Interfaces.get_insert, if_pos rfl]
  have hown : OwnCopy 7 oneLink f := ⟨eth1, f, h1, hf, rfl, by rw [hix, h1]; rfl⟩
  obtain ⟨s, hs, hq, -, hloc⟩ := handle_all oneLink (fun _ => false) noRoutes [f]
  refine ⟨s, f, hs, by rw [hloc], .own hown, ?_⟩
  obtain ⟨ni, hh⟩ := hello_own hown
  rw [receiver_table hs ⟨by rw [hloc], by rw [hq]; simp⟩, hloc]
  show (receive oneLink .new f).entries.lookup 7 ≠ none
  unfold receive
  rw [hh]
  unfold hear
  simp

theorem own_neighbor_iff_other :
    (∀ s, Receiving oneLink (fun _ => false) noRoutes s → (s.loc 0).seen <+: [helloFrame 1 9 0x0a00000b mac1] →
      s.srv.nt.entries.lookup 7 = none) ↔ ∀ f ∈ [helloFrame 1 9 0x0a00000b mac1], ¬ OwnCopy 7 oneLink f :=
  own_neighbor_iff fun f hf => by
    rw [List.mem_singleton.mp hf]
    exact .other 9 _ _ (by decide) (isHello_helloFrame _ _ _ _)

end FabricRs.UserSpace

/-
  FabricRs.State.Refused — forwarding entries the trie does not take.

  `LpmTrie::insert` refuses a key of more than 32 bits, and a new entry of a full map
  (`HasRoom` is the rest). `ForwardingTable::add` drops its result, `Table::add` has none
  to give, the actor's `Add` command carries no one-shot, and `StateClient::add` is `Ok`
  once the command is queued. `NeverDropped` is what a client that heeds its results may
  count on.

  - `add_returned`: every add the actor has served has returned `Ok`.
  - `never_dropped_iff`: in every interleaving of any clients, nothing is dropped exactly
    if every add so far found room.
-/

import FabricRs.State.Linearizable

namespace FabricRs.State

open Mailbox (Prog Req Runs Before)

/-- What a command does to the forwarding table. -/
def StateCommand.onForwarding (t : ForwardingTable) : StateCommand → ForwardingTable
  | .add (.forwarding k v) => Table.add t ⟨k.1, k.2⟩ ⟨v⟩
  | .del (.forwarding p l) => Table.remove t ⟨p, l⟩
  | _ => t

/-- The forwarding table after `cmds`. -/
def forwardingAfter (lpmTrie : LpmTrie) (cmds : List StateCommand) : ForwardingTable :=
  cmds.foldl StateCommand.onForwarding ⟨lpmTrie⟩

/-- The bits of a key the trie looks at, which name its entry. -/
def entryBits (k : U32 × U32) : List Bool := (lpmKey k.2 k.1).bits nativeBit

/-- The command adds or deletes the entry of `k`. -/
def StateCommand.Addresses (k : U32 × U32) : StateCommand → Prop
  | .add (.forwarding k' _) => entryBits k' = entryBits k
  | .del (.forwarding p l) => entryBits (p, l) = entryBits k
  | _ => False

/-- The trie refuses the entry. -/
def Refused (t : ForwardingTable) (k : U32 × U32) (v : NextHops) : Prop :=
  t.entries.insert (lpmKey k.2 k.1) v = none

/-- The key has at most 32 bits, and its entry is there already or the map is not full. -/
def HasRoom (t : ForwardingTable) (k : U32 × U32) : Prop :=
  k.2.toNat ≤ 32 ∧
    ((∃ e ∈ t.entries.entries, e.1.bits nativeBit = entryBits k) ∨ t.entries.entries.length < maxEntries)

theorem not_refused_iff {t : ForwardingTable} {k : U32 × U32} {v : NextHops} : ¬ Refused t k v ↔ HasRoom t k := by
  unfold Refused
  rw [← ne_eq, ← Option.isSome_iff_ne_none]
  exact Lpm.Trie.insert_isSome_iff

variable {L : Type}

abbrev StateSt (L : Type) := Mailbox.St Tables StateCommand Reply L stateCap cliCap

/-- The commands served before the turn that comes after `l1` in the log. -/
def served (l1 : List (Req StateCommand × Option Reply)) : List StateCommand := l1.map fun x => x.1.call

/-- No forwarding entry is dropped without a word. -/
structure NeverDropped (lpmTrie : LpmTrie) (s : StateSt L) : Prop where
  /-- An add that returned `Ok` is in a list its client asks for later, with its value, or a
      command between the two addressed the same entry. -/
  visible : ∀ c op k v op' kvs, .inv c op (.add (.forwarding k v)) ∈ s.hist →
    Before s.hist (.ret c op none) (.inv c op' (.list .forwardingTable)) → .ret c op' (some (.list kvs)) ∈ s.hist →
    ∃ l1 x l2 y l3, s.log = l1 ++ x :: (l2 ++ y :: l3) ∧ x.1.op = op ∧ y.1.op = op' ∧
      (.forwarding k v ∈ kvs ∨ ∃ z ∈ l2, z.1.call.Addresses k)
  /-- An add the trie refuses does not return `Ok`. -/
  reported : ∀ l1 x l2 k v, s.log = l1 ++ x :: l2 → x.1.call = .add (.forwarding k v) →
    Refused (forwardingAfter lpmTrie (served l1)) k v → .ret x.1.who x.1.op none ∉ s.hist
  /-- And it leaves the table as it was. -/
  unchanged : ∀ l1 x l2 k v, s.log = l1 ++ x :: l2 → x.1.call = .add (.forwarding k v) →
    Refused (forwardingAfter lpmTrie (served l1)) k v →
    forwardingAfter lpmTrie (served (l1 ++ [x])) = forwardingAfter lpmTrie (served l1)

/-- Every add served so far found room in the table as it was then. -/
def AllHadRoom (lpmTrie : LpmTrie) (s : StateSt L) : Prop :=
  ∀ l1 x l2 k v, s.log = l1 ++ x :: l2 → x.1.call = .add (.forwarding k v) →
    HasRoom (forwardingAfter lpmTrie (served l1)) k

/-! ## One command -/

theorem serve_ft {s t : Tables} {c : StateCommand} {r : Option Reply} (h : Serve s c t r) :
    t.ft = c.onForwarding s.ft := by
  cases h with
  | add kv => cases kv <;> rfl
  | get k => rfl
  | del k => cases k <;> rfl
  | list tt kvs _ => rfl

theorem add_refused {t : ForwardingTable} {k : U32 × U32} {v : NextHops} (h : Refused t k v) :
    StateCommand.onForwarding t (.add (.forwarding k v)) = t := by
  show ForwardingTable.mk (Option.getD (t.entries.insert (lpmKey k.2 k.1) v) t.entries) = t
  rw [show t.entries.insert (lpmKey k.2 k.1) v = none from h]
  rfl

/-- An entry taken is there, under its own key. -/
theorem entry_add {t : ForwardingTable} {k : U32 × U32} (v : NextHops) (h : HasRoom t k) :
    (StateCommand.onForwarding t (.add (.forwarding k v))).entries.entry (entryBits k) = some (lpmKey k.2 k.1, v) := by
  have hs : (t.entries.insert (lpmKey k.2 k.1) v).isSome := Lpm.Trie.insert_isSome_iff.mpr h
  obtain ⟨t', ht⟩ := Option.isSome_iff_exists.mp hs
  show (Option.getD (t.entries.insert (lpmKey k.2 k.1) v) t.entries).entry _ = _
  rw [ht, Option.getD_some, Lpm.Trie.insert_entry ht]
  exact Function.update_self _ _ _

theorem entry_frame {c : StateCommand} {k : U32 × U32} (h : ¬ c.Addresses k) (t : ForwardingTable) :
    (c.onForwarding t).entries.entry (entryBits k) = t.entries.entry (entryBits k) := by
  cases c with
  | add kv =>
    cases kv with
    | forwarding k' v =>
      show (Option.getD (t.entries.insert (lpmKey k'.2 k'.1) v) t.entries).entry _ = _
      cases ht : t.entries.insert (lpmKey k'.2 k'.1) v with
      | none => rfl
      | some t' =>
        rw [Option.getD_some, Lpm.Trie.insert_entry ht]
        exact Function.update_of_ne (fun e => h e.symm) _ _
    | neighbor _ _ => rfl
    | route _ _ => rfl
  | get _ => rfl
  | del k' =>
    cases k' with
    | forwarding p l =>
      show (t.entries.remove (lpmKey l p)).entry _ = _
      rw [Lpm.Trie.remove_entry]
      exact Function.update_of_ne (fun e => h e.symm) _ _
    | neighbor _ => rfl
    | route _ _ => rfl
  | list _ => rfl

/-- What is stored is listed, under the key's own bytes. -/
theorem mem_list {s : Tables} {kvs : List KeyValue} {k : U32 × U32} {v : NextHops} (hl : s.Lists .forwardingTable kvs)
    (h : s.ft.entries.entry (entryBits k) = some (lpmKey k.2 k.1, v)) : .forwarding k v ∈ kvs := by
  obtain ⟨l, hperm, rfl⟩ := hl
  have hp : (l.map fun e => (lpmKey e.1.prefixLen e.1.prefixIp, e.2.nextHops)).Perm s.ft.entries.entries := hperm
  obtain ⟨e, he, hk⟩ := List.mem_map.mp (hp.mem_iff.mpr (Lpm.Trie.entry_eq_some.mp h).1)
  have hip : e.1.prefixIp = k.1 := congrArg (·.1.data) hk
  have hlen : e.1.prefixLen = k.2 := BitVec.eq_of_toNat_eq (congrArg (·.1.len) hk)
  have hv : e.2.nextHops = v := congrArg (·.2) hk
  refine List.mem_map.mpr ⟨e, he, ?_⟩
  rw [hip, hlen, hv]

/-! ## A run of commands -/

theorem forwardingAfter_append (lpmTrie : LpmTrie) (cmds cmds' : List StateCommand) :
    forwardingAfter lpmTrie (cmds ++ cmds') = cmds'.foldl StateCommand.onForwarding (forwardingAfter lpmTrie cmds) := by
  simp [forwardingAfter]

theorem runs_ft {lpmTrie : LpmTrie} {l : List (StateCommand × Option Reply)} {s : Tables}
    (h : Runs (server lpmTrie) (Tables.new lpmTrie) l s) : s.ft = forwardingAfter lpmTrie (l.map (·.1)) := by
  generalize h0 : Tables.new lpmTrie = s0 at h
  induction h with
  | nil =>
    subst h0
    rfl
  | snoc _ hs ih =>
    rw [List.map_append, forwardingAfter_append, ← ih, serve_ft hs]
    rfl

/-- An entry stays while no command addresses it. -/
theorem entry_frame_all {cmds : List StateCommand} {k : U32 × U32} (h : ∀ c ∈ cmds, ¬ c.Addresses k)
    (t : ForwardingTable) :
    (cmds.foldl StateCommand.onForwarding t).entries.entry (entryBits k) = t.entries.entry (entryBits k) := by
  induction cmds generalizing t with
  | nil => rfl
  | cons c cmds ih =>
    rw [List.foldl_cons, ih (fun d hd => h d (List.mem_cons_of_mem c hd)), entry_frame (h c List.mem_cons_self)]

/-! ## Any interleaving -/

section interleaving

variable {lpmTrie : LpmTrie} {P : Prog StateCommand Reply L} {s : StateSt L}

/-- `StateClient::add` is `Ok` whatever the actor makes of the command. -/
theorem add_returned (h : Mailbox.Reach (server lpmTrie) P s) {x : Req StateCommand × Option Reply} (hx : x ∈ s.log)
    {kv : KeyValue} (hc : x.1.call = .add kv) : .ret x.1.who x.1.op none ∈ s.hist := by
  refine Mailbox.posted h x.1 (List.mem_append_left _ (List.mem_map_of_mem hx)) ?_
  rw [hc]
  rfl

/-- Where an add and a list of one client stand in the log, the list asked for once the add
    had returned, and answered. -/
theorem add_list_served (h : Mailbox.Reach (server lpmTrie) P s) {c op op' : Nat} {kv : KeyValue} {tt : TableType}
    {kvs : List KeyValue} (hinv : .inv c op (.add kv) ∈ s.hist)
    (hb : Before s.hist (.ret c op none) (.inv c op' (.list tt))) (hret : .ret c op' (some (.list kvs)) ∈ s.hist) :
    ∃ l1 x l2 y l3, s.log = l1 ++ x :: (l2 ++ y :: l3) ∧ x.1.op = op ∧ x.1.call = .add kv ∧ y.1.op = op' ∧
      y.1.call = .list tt ∧ y.2 = some (.list kvs) := by
  have hi := Mailbox.ids h
  have hh := Mailbox.hist h
  obtain ⟨r, -, -, -, -, ha⟩ := hh.ret c op' _ hret
  obtain ⟨y, hy, hyop, hyans⟩ := ha rfl
  obtain ⟨m, l3, hm⟩ := List.append_of_mem hy
  have hops : Mailbox.ops s = m.map (·.1.op) ++ op' :: (l3.map (·.1.op) ++ s.q.buf.map Req.op) := by
    rw [Mailbox.ops, Mailbox.ord, hm, ← hyop]
    simp [Function.comp_def]
  have hbefore := hh.realTime c op none c op' _ hb (by rw [hops]; simp)
  have hnodup := (Mailbox.hold h).nodup
  rw [hops] at hbefore hnodup
  obtain ⟨x, hx, hxop⟩ := List.mem_map.mp (hbefore.mem_left hnodup)
  obtain ⟨l1, l2, rfl⟩ := List.append_of_mem hx
  have hxlog : x ∈ s.log := by rw [hm]; simp
  refine ⟨l1, x, l2, y, l3, by rw [hm]; simp, hxop, ?_, hyop, ?_, hyans⟩
  · exact (hi.op_inj (hi.log x hxlog) (hh.inv c op _ hinv) hxop).2
  · exact (hi.op_inj (hi.log y hy) (hh.inv c op' _ hb.right) hyop).2

theorem visible_of_room (h : Mailbox.Reach (server lpmTrie) P s) (hroom : AllHadRoom lpmTrie s) {c op op' : Nat}
    {k : U32 × U32} {v : NextHops} {kvs : List KeyValue} (hinv : .inv c op (.add (.forwarding k v)) ∈ s.hist)
    (hb : Before s.hist (.ret c op none) (.inv c op' (.list .forwardingTable)))
    (hret : .ret c op' (some (.list kvs)) ∈ s.hist) :
    ∃ l1 x l2 y l3, s.log = l1 ++ x :: (l2 ++ y :: l3) ∧ x.1.op = op ∧ y.1.op = op' ∧
      (.forwarding k v ∈ kvs ∨ ∃ z ∈ l2, z.1.call.Addresses k) := by
  obtain ⟨l1, x, l2, y, l3, hlog, hxop, hx, hyop, hy, hans⟩ := add_list_served h hinv hb hret
  refine ⟨l1, x, l2, y, l3, hlog, hxop, hyop, ?_⟩
  by_cases hz : ∃ z ∈ l2, z.1.call.Addresses k
  · exact Or.inr hz
  left
  have hr := (Mailbox.hist h).runs
  rw [hlog, ← List.cons_append, ← List.append_assoc, List.map_append, List.map_cons] at hr
  obtain ⟨u, w, hu, hserve⟩ := hr.split
  have hserve : Serve u y.1.call w y.2 := hserve
  rw [hy, hans] at hserve
  have hl : u.Lists .forwardingTable kvs := by
    cases hserve with
    | list _ _ hl => exact hl
  refine mem_list hl ?_
  -- the table the list was made of: the add, then commands that leave its entry alone
  have hft := runs_ft hu
  have hcmds : ((l1 ++ x :: l2).map fun z => (z.1.call, z.2)).map (·.1) =
      served l1 ++ .add (.forwarding k v) :: served l2 := by
    rw [List.map_map, List.map_append, List.map_cons, ← hx]
    rfl
  rw [hcmds, forwardingAfter_append, List.foldl_cons] at hft
  rw [hft, entry_frame_all]
  · exact entry_add v (hroom l1 x (l2 ++ y :: l3) k v hlog hx)
  · intro d hd ha
    obtain ⟨z, hzl, rfl⟩ := List.mem_map.mp hd
    exact hz ⟨z, hzl, ha⟩

/-- In every reachable state, forwarding entries have been dropped silently exactly if some
    add found no room. -/
theorem never_dropped_iff (h : Mailbox.Reach (server lpmTrie) P s) : NeverDropped lpmTrie s ↔ AllHadRoom lpmTrie s := by
  refine ⟨fun hd l1 x l2 k v hlog hx => ?_, fun hroom => ⟨?_, ?_, ?_⟩⟩
  · rw [← not_refused_iff (v := v)]
    intro hr
    exact hd.reported l1 x l2 k v hlog hx hr (add_returned h (by rw [hlog]; simp) hx)
  · intro c op k v op' kvs hinv hb hret
    exact visible_of_room h hroom hinv hb hret
  · intro l1 x l2 k v hlog hx hr
    exact absurd hr (not_refused_iff.mpr (hroom l1 x l2 k v hlog hx))
  · intro l1 x l2 k v hlog hx hr
    rw [served, List.map_append, forwardingAfter_append]
    show StateCommand.onForwarding _ x.1.call = _
    rw [hx]
    exact add_refused hr

end interleaving

def someHops : NextHops := Vector.replicate 32 ⟨1, 1, .zero, .zero, 1⟩

/-- One client adds 10.0.0.0/8 and lists the table: the entry is there. -/
theorem never_dropped_iff_list : ∃ (s : StateSt Unit) (kvs : List KeyValue),
    s.hist = [.inv 0 0 (.add (.forwarding (0x0a000000, 8) someHops)), .ret 0 0 none,
      .inv 0 1 (.list .forwardingTable), .ret 0 1 (some (.list kvs))] ∧
    NeverDropped noRoutes s ∧ .forwarding (0x0a000000, 8) someHops ∈ kvs := by
  have h0 : Mailbox.Reach (server noRoutes) anyClients
      (Mailbox.init (server noRoutes) anyClients : StateSt Unit) := .init rfl
  obtain ⟨s, hs, hadd⟩ := Mailbox.round h0 (by decide) rfl (c := 0) rfl rfl (Or.inl rfl)
    (Serve.add (Tables.new noRoutes) (.forwarding (0x0a000000, 8) someHops))
  obtain ⟨kvs, hl⟩ := s.srv.exists_lists .forwardingTable
  obtain ⟨t, ht, hlist⟩ := Mailbox.round hs (by decide) hadd.q (c := 0) (by rw [hadd.pc]; rfl) rfl (Or.inl rfl)
    (Serve.list s.srv .forwardingTable kvs hl)
  have hlog := hlist.log
  have hhist := hlist.hist
  rw [hadd.log, hadd.issued] at hlog
  rw [hadd.hist, hadd.issued] at hhist
  have hroom : AllHadRoom noRoutes t := by
    intro l1 x l2 k v he hx
    rw [hlog] at he
    cases l1 with
    | nil =>
      cases he
      cases hx
      exact ⟨by decide, Or.inr (show 0 < 2048 by decide)⟩
    | cons y l1 =>
      -- what comes after the add is the list
      injection he with _ he
      cases l1 with
      | nil => cases he; cases hx
      | cons z l1 => cases l1 <;> cases he
  have hnever := (never_dropped_iff ht).mpr hroom
  obtain ⟨l1, x, l2, y, l3, he, -, -, hmem⟩ := hnever.visible 0 0 _ _ 1 kvs (by rw [hhist]; exact List.mem_cons_self)
    (by rw [hhist]; exact .cons _ (.cons_cons _ (.cons_cons _ (List.nil_sublist _)))) (by rw [hhist]; simp [Mailbox.init])
  have hl2 : l2 = [] := by
    have hlen := congrArg List.length (hlog.symm.trans he)
    refine List.length_eq_zero_iff.mp ?_
    simp only [List.length_append, List.length_cons, List.length_nil, Mailbox.init] at hlen
    omega
  refine ⟨t, kvs, hhist, hnever, hmem.resolve_right ?_⟩
  rintro ⟨z, hz, -⟩
  rw [hl2] at hz
  cases hz

/-- An add with a length of 33 returns `Ok`, and the client's list is empty. -/
theorem long_prefix_dropped : ∃ s : StateSt Unit, Mailbox.Reach (server noRoutes) anyClients s ∧
    .ret 0 0 none ∈ s.hist ∧
    s.log.map (fun x => (x.1.who, x.2)) = [(0, none), (0, some (.list []))] ∧ ¬ NeverDropped noRoutes s := by
  have h0 : Mailbox.Reach (server noRoutes) anyClients
      (Mailbox.init (server noRoutes) anyClients : StateSt Unit) := .init rfl
  obtain ⟨s, hs, hadd⟩ := Mailbox.round h0 (by decide) rfl (c := 0) rfl rfl (Or.inl rfl)
    (Serve.add (Tables.new noRoutes) (.forwarding (0x0a000000, 33) someHops))
  have hl : s.srv.Lists .forwardingTable [] := by
    rw [hadd.srv]
    exact ⟨[], List.Perm.refl [], rfl⟩
  obtain ⟨t, ht, hlist⟩ := Mailbox.round hs (by decide) hadd.q (c := 0) (by rw [hadd.pc]; rfl) rfl (Or.inl rfl)
    (Serve.list s.srv .forwardingTable [] hl)
  have hlog := hlist.log
  rw [hadd.log] at hlog
  have hmem : (⟨⟨0, 0, .add (.forwarding (0x0a000000, 33) someHops), 0⟩, none⟩ : Req StateCommand × Option Reply) ∈ t.log := by
    rw [hlog]
    simp [Mailbox.init]
  have hret : .ret 0 0 none ∈ t.hist := add_returned ht hmem rfl
  refine ⟨t, ht, hret, by rw [hlog]; rfl, fun hd => ?_⟩
  exact hd.reported [] _ _ (0x0a000000, 33) _ (by rw [hlog]; rfl) rfl rfl hret

end FabricRs.State

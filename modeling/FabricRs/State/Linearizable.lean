/-
  FabricRs.State.Linearizable — the State actor as its clients see it.

  The clients are those of `FabricRs.Lib.Mailbox` with any programs at all: a direct one
  is a `StateClient`, the others are `CliClient`s behind the task of `Cli::run`.
  `live cmds k` is what the key `k` should hold once `cmds` ran: the value of the last
  add of `k` that no del of `k` follows.

  - `get_live`, `lists_live_run`: after any sequential run, a hash table holds that.
  - `tables_linearizable`: the calls of any interleaving have one order, extending each
    client's own and the order of calls that did not overlap, in which every answer is
    the one `live` gives.
-/

import FabricRs.Lib.LastWrite
import FabricRs.State.Actor

namespace FabricRs.State

open Mailbox (Server Prog Req Runs Linear)

/-- What a command does to the value at a key. -/
def StateCommand.effect : StateCommand → Key → Option (Option Value)
  | .add kv, k => if k = kv.key then some (some kv.value) else none
  | .del k', k => if k = k' then some none else none
  | .get _, _ => none
  | .list _, _ => none

/-- The value of the last add of `k` in `cmds` that no del of `k` follows. -/
def live (cmds : List StateCommand) (k : Key) : Option Value := LastWrite.value StateCommand.effect cmds k

/-! ## Sequential runs -/

theorem serve_get {s t : Tables} {c : StateCommand} {r : Option Reply} (h : Serve s c t r) {k : Key} (hk : k.Hashed) :
    t.get k = (c.effect k).getD (s.get k) := by
  cases h with
  | add kv =>
    rw [get_add hk, StateCommand.effect]
    split <;> rfl
  | del k' =>
    rw [get_del hk, StateCommand.effect]
    split <;> rfl
  | get _ => rfl
  | list _ _ _ => rfl

/-- After any run, a hash table's key holds what was last added and not deleted since. -/
theorem get_live {lpmTrie : LpmTrie} {l : List (StateCommand × Option Reply)} {s : Tables}
    (h : Runs (server lpmTrie) (Tables.new lpmTrie) l s) {k : Key} (hk : k.Hashed) :
    s.get k = live (l.map (·.1)) k := by
  generalize h0 : Tables.new lpmTrie = s0 at h
  induction h with
  | nil =>
    subst h0
    cases k with
    | neighbor id => rw [get_neighbor]; rfl
    | route p n => rw [get_route]; rfl
    | forwarding p n => cases hk
  | snoc _ hs ih =>
    rw [List.map_append, List.map_singleton, live, LastWrite.value_snoc, serve_get hs hk, ih, live]

theorem hashed_of_table {k : Key} (h : k.table ≠ .forwardingTable) : k.Hashed := by
  cases k with
  | neighbor _ => trivial
  | route _ _ => trivial
  | forwarding _ _ => exact h rfl

/-- After any run, a hash table's list holds each live key once, with its value. -/
theorem lists_live_run {lpmTrie : LpmTrie} {l : List (StateCommand × Option Reply)} {s : Tables}
    (h : Runs (server lpmTrie) (Tables.new lpmTrie) l s) {tt : TableType} {kvs : List KeyValue}
    (ht : tt ≠ .forwardingTable) (hl : s.Lists tt kvs) : LiveList (live (l.map (·.1))) tt kvs := by
  obtain ⟨hn, hm⟩ := lists_live ht hl
  refine ⟨hn, fun kv => (hm kv).trans (and_congr_right fun e => ?_)⟩
  rw [get_live h (hashed_of_table (by rw [e]; exact ht))]

/-! ## Any interleaving -/

/-- What a command answers and does, given the commands served before it; `u` and `v` are
    the tables around it. -/
structure Correct (before : List StateCommand) (u : Tables) (c : StateCommand) (v : Tables) (r : Option Reply) : Prop where
  get : ∀ k, c = .get k → k.Hashed → r = some (.value (live before k))
  list : ∀ tt, c = .list tt → tt ≠ .forwardingTable → ∃ kvs, r = some (.list kvs) ∧ LiveList (live before) tt kvs
  /-- The conversion of the answer in `disco_handler` does not panic. -/
  variant : ∀ id, c = .get (.neighbor id) →
    ∃ o, r = some (.value o) ∧ ∀ x, o = some x → ∃ n, x.intoNeighbor = some n
  frame : (c.table ≠ .neighborTable → v.nt = u.nt) ∧ (c.table ≠ .routeTable → v.rt = u.rt) ∧
    (c.table ≠ .forwardingTable → v.ft = u.ft)

theorem serve_correct {lpmTrie : LpmTrie} {l : List (StateCommand × Option Reply)} {u v : Tables} {c : StateCommand}
    {r : Option Reply} (h : Runs (server lpmTrie) (Tables.new lpmTrie) l u) (hs : Serve u c v r) :
    Correct (l.map (·.1)) u c v r := by
  refine ⟨?_, ?_, ?_, serve_frame hs⟩
  · rintro k rfl hk
    cases hs
    rw [get_live h hk]
  · rintro tt rfl ht
    cases hs with
    | list _ kvs hl => exact ⟨kvs, rfl, lists_live_run h ht hl⟩
  · rintro id rfl
    cases hs
    refine ⟨_, rfl, fun x hx => ?_⟩
    obtain ⟨n, -, hn⟩ := get_neighbor_variant hx
    exact ⟨n, hn⟩

/-- In any interleaving of any clients the calls have one order, a sequential run of the
    actor that extends the order in which it served them so far, where each is answered
    by what was added and deleted before it. -/
theorem tables_linearizable {L : Type} {lpmTrie : LpmTrie} {P : Prog StateCommand Reply L}
    {s : Mailbox.St Tables StateCommand Reply L stateCap cliCap} (h : Mailbox.Reach (server lpmTrie) P s) :
    ∃ (l : List (Req StateCommand × Option Reply)) (t : Tables),
      s.log <+: l ∧ Linear (server lpmTrie) s.hist l t ∧
      ∀ l1 x l2, l = l1 ++ x :: l2 → ∃ u v,
        Runs (server lpmTrie) (Tables.new lpmTrie) (l1.map fun y => (y.1.call, y.2)) u ∧ Serve u x.1.call v x.2 ∧
        Correct (l1.map fun y => y.1.call) u x.1.call v x.2 := by
  obtain ⟨l, t, hlog, hl⟩ := Mailbox.linearizable h
  refine ⟨l, t, hlog, hl, ?_⟩
  rintro l1 x l2 rfl
  have hr := hl.runs
  rw [List.map_append, List.map_cons] at hr
  obtain ⟨u, v, hu, hs⟩ := hr.split
  refine ⟨u, v, hu, hs, ?_⟩
  have hc := serve_correct hu hs
  rw [List.map_map] at hc
  exact hc

/-- Clients that make any call at any time: the even ones hold a `StateClient`, the odd
    ones a `CliClient`, which only lists. -/
def anyClients : Prog StateCommand Reply Unit where
  init _ := ()
  direct c := c % 2 = 0
  tau _ _ _ := False
  call c _ cmd := c % 2 = 0 ∨ ∃ tt, cmd = .list tt
  ret _ _ _ _ := ()

/-- One client adds the neighbor 7, another gets it. -/
theorem tables_linearizable_add_get :
    ∃ s : Mailbox.St Tables StateCommand Reply Unit stateCap cliCap,
      s.log.map (fun x => (x.1.who, x.2)) = [(0, none), (2, some (.value (some (.neighbor .new))))] ∧
      ∃ (l : List (Req StateCommand × Option Reply)) (t : Tables),
        s.log <+: l ∧ Linear (server noRoutes) s.hist l t ∧
        ∀ l1 x l2, l = l1 ++ x :: l2 → ∃ u v,
          Runs (server noRoutes) (Tables.new noRoutes) (l1.map fun y => (y.1.call, y.2)) u ∧ Serve u x.1.call v x.2 ∧
          Correct (l1.map fun y => y.1.call) u x.1.call v x.2 := by
  have h0 : Mailbox.Reach (server noRoutes) anyClients
      (Mailbox.init (server noRoutes) anyClients : Mailbox.St _ _ _ _ stateCap cliCap) := .init rfl
  obtain ⟨s, hs, hadd⟩ := Mailbox.round h0 (by decide) rfl (c := 0) rfl rfl (Or.inl rfl)
    (Serve.add (Tables.new noRoutes) (.neighbor 7 .new))
  obtain ⟨t, ht, hget⟩ := Mailbox.round hs (by decide) hadd.q (c := 2) (by rw [hadd.pc]; rfl) rfl (Or.inl rfl)
    (Serve.get s.srv (.neighbor 7))
  refine ⟨t, ?_, tables_linearizable ht⟩
  rw [hget.log, hadd.log, hadd.srv]
  rfl

end FabricRs.State

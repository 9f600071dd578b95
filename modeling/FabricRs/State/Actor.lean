/-
  FabricRs.State.Actor — the State actor (`state/state.rs`): its commands, what one of
  them does to the three tables, and the server of `FabricRs.Lib.Mailbox` it is.

  `State::run` owns the tables and handles the commands of one channel of 32 in turn;
  `StateClient`s queue them, a `get` or `list` with a one-shot for the answer. A
  `CliClient`'s `list` goes through the task of `Cli::run`, behind a channel of 32 of its
  own. The actor and the relay live as long as the program, so no send or one-shot fails.

  - `get_add`, `get_del`: what a key of a hash table answers after an update.
  - `lists_live`: a hash table's list holds each live key once.
  - `serve_frame`: a command leaves the other two tables as they were.
-/

import FabricRs.Lib.MailboxProofs
import FabricRs.State.Tables

namespace FabricRs.State

open Mailbox (Server Prog)

inductive Key where
  | neighbor (id : U32)
  | route (prefixIp : U32) (prefixLen : U8)
  | forwarding (prefixIp prefixLen : U32)
  deriving DecidableEq, Repr

inductive Value where
  | neighbor (value : Neighbor)
  | route (value : Route)
  | forwarding (value : NextHops)

/-- `impl Into<Neighbor> for Value`; `none` where it panics. -/
def Value.intoNeighbor : Value → Option Neighbor
  | .neighbor v => some v
  | _ => none

inductive KeyValue where
  | neighbor (key : U32) (value : Neighbor)
  | route (key : U32 × U8) (value : Route)
  | forwarding (key : U32 × U32) (value : NextHops)

inductive StateCommand where
  | add (kv : KeyValue)
  | get (key : Key)
  | del (key : Key)
  | list (tableType : TableType)

/-- The commands that carry a one-shot. -/
def StateCommand.wants : StateCommand → Bool
  | .get _ => true
  | .list _ => true
  | .add _ => false
  | .del _ => false

/-- What comes back on a one-shot. -/
inductive Reply where
  | value (v : Option Value)
  | list (kvs : List KeyValue)

structure Tables where
  ft : ForwardingTable
  rt : RouteTable
  nt : NeighborTable

/-- The tables `State::run` starts with; the trie is the one `main` hands over. -/
def Tables.new (lpmTrie : LpmTrie) : Tables := ⟨⟨lpmTrie⟩, .new, .new⟩

namespace Tables

def add (s : Tables) : KeyValue → Tables
  | .neighbor k v => { s with nt := Table.add s.nt ⟨k⟩ ⟨v⟩ }
  | .route k v => { s with rt := Table.add s.rt ⟨k.1, k.2⟩ ⟨v⟩ }
  | .forwarding k v => { s with ft := Table.add s.ft ⟨k.1, k.2⟩ ⟨v⟩ }

def del (s : Tables) : Key → Tables
  | .neighbor k => { s with nt := Table.remove s.nt ⟨k⟩ }
  | .route p l => { s with rt := Table.remove s.rt ⟨p, l⟩ }
  | .forwarding p l => { s with ft := Table.remove s.ft ⟨p, l⟩ }

def get (s : Tables) : Key → Option Value
  | .neighbor k => (Table.get s.nt ⟨k⟩).map fun v => .neighbor v.neighbor
  | .route p l => (Table.get s.rt ⟨p, l⟩).map fun v => .route v.route
  | .forwarding p l => (Table.get s.ft ⟨p, l⟩).map fun v => .forwarding v.nextHops

/-- `kvs` is a table's list, entry by entry converted. -/
def Lists (s : Tables) : TableType → List KeyValue → Prop
  | .neighborTable, kvs => ∃ l, Table.lists s.nt l ∧ kvs = l.map fun e => .neighbor e.1.id e.2.neighbor
  | .routeTable, kvs => ∃ l, Table.lists s.rt l ∧ kvs = l.map fun e => .route (e.1.prefixIp, e.1.prefixLen) e.2.route
  | .forwardingTable, kvs =>
    ∃ l, Table.lists s.ft l ∧ kvs = l.map fun e => .forwarding (e.1.prefixIp, e.1.prefixLen) e.2.nextHops

end Tables

/-- One turn of `State::run`'s loop. -/
inductive Serve : Tables → StateCommand → Tables → Option Reply → Prop
  | add (s : Tables) (kv : KeyValue) : Serve s (.add kv) (s.add kv) none
  | get (s : Tables) (k : Key) : Serve s (.get k) s (some (.value (s.get k)))
  | del (s : Tables) (k : Key) : Serve s (.del k) (s.del k) none
  | list (s : Tables) (tt : TableType) (kvs : List KeyValue) : s.Lists tt kvs →
      Serve s (.list tt) s (some (.list kvs))

/-! ## The server -/

theorem forwarding_lists (t : ForwardingTable) : ∃ l, Table.lists t l := by
  refine ⟨t.entries.entries.map fun e => (⟨e.1.data, BitVec.ofNat 32 e.1.len⟩, ⟨e.2⟩), ?_⟩
  show List.Perm (List.map _ (List.map _ _)) _
  rw [List.map_map]
  suffices h : t.entries.entries.map ((fun e : ForwadingTableKey × ForwadingTableValue =>
      (lpmKey e.1.prefixLen e.1.prefixIp, e.2.nextHops)) ∘ fun e => (⟨e.1.data, BitVec.ofNat 32 e.1.len⟩, ⟨e.2⟩)) =
      t.entries.entries.map id by rw [h, List.map_id]
  apply List.map_congr_left
  intro e he
  have hl := t.entries.short e he
  have : e.1.len % 4294967296 = e.1.len := by omega
  simp [lpmKey, this]

theorem Tables.exists_lists (s : Tables) (tt : TableType) : ∃ kvs, s.Lists tt kvs := by
  cases tt with
  | neighborTable =>
    obtain ⟨l, hl⟩ := s.nt.entries.exists_lists
    refine ⟨_, l.map fun e => (⟨e.1⟩, ⟨e.2⟩), ?_, rfl⟩
    show HashMap.Lists _ _
    simpa [Function.comp_def] using hl
  | routeTable =>
    obtain ⟨l, hl⟩ := s.rt.entries.exists_lists
    refine ⟨_, l.map fun e => (⟨e.1.1, e.1.2⟩, ⟨e.2⟩), ?_, rfl⟩
    show HashMap.Lists _ _
    simpa [Function.comp_def] using hl
  | forwardingTable =>
    obtain ⟨l, hl⟩ := forwarding_lists s.ft
    exact ⟨_, l, hl, rfl⟩

theorem Serve.wants {s t : Tables} {c : StateCommand} {r : Option Reply} (h : Serve s c t r) : r.isSome = c.wants := by
  cases h <;> rfl

theorem Serve.total (s : Tables) (c : StateCommand) : ∃ t r, Serve s c t r := by
  cases c with
  | add kv => exact ⟨_, _, .add s kv⟩
  | get k => exact ⟨_, _, .get s k⟩
  | del k => exact ⟨_, _, .del s k⟩
  | list tt =>
    obtain ⟨kvs, h⟩ := s.exists_lists tt
    exact ⟨_, _, .list s tt kvs h⟩

/-- `State::run`, started on the trie `lpmTrie`. -/
def server (lpmTrie : LpmTrie) : Server Tables StateCommand Reply where
  init := Tables.new lpmTrie
  wants := StateCommand.wants
  serve := Serve
  serve_wants := Serve.wants
  serve_total := Serve.total

/-- The capacity of the State actor's and of the CLI relay's channel. -/
def stateCap : Nat := 32
def cliCap : Nat := 32

/-! ## What the tables answer -/

/-- The key an entry is stored under. -/
def KeyValue.key : KeyValue → Key
  | .neighbor k _ => .neighbor k
  | .route k _ => .route k.1 k.2
  | .forwarding k _ => .forwarding k.1 k.2

def KeyValue.value : KeyValue → Value
  | .neighbor _ v => .neighbor v
  | .route _ v => .route v
  | .forwarding _ v => .forwarding v

/-- The keys of the two hash tables. -/
def Key.Hashed : Key → Prop
  | .neighbor _ => True
  | .route _ _ => True
  | .forwarding _ _ => False

@[simp] theorem add_neighbor_nt (s : Tables) (k : U32) (v : Neighbor) :
    (s.add (.neighbor k v)).nt.entries = s.nt.entries.insert k v := rfl
@[simp] theorem del_neighbor_nt (s : Tables) (k : U32) : (s.del (.neighbor k)).nt.entries = s.nt.entries.erase k := rfl

theorem get_neighbor (s : Tables) (k : U32) : s.get (.neighbor k) = (s.nt.entries.lookup k).map .neighbor := by
  show Option.map _ (Option.map _ _) = _
  rw [Option.map_map]
  rfl

theorem get_route (s : Tables) (p : U32) (l : U8) : s.get (.route p l) = (s.rt.entries.lookup (p, l)).map .route := by
  show Option.map _ (Option.map _ _) = _
  rw [Option.map_map]
  rfl

theorem get_add {s : Tables} {kv : KeyValue} {k : Key} (hk : k.Hashed) :
    (s.add kv).get k = if k = kv.key then some kv.value else s.get k := by
  cases kv with
  | neighbor id v =>
    cases k with
    | neighbor id' =>
      rw [get_neighbor, get_neighbor, add_neighbor_nt, HashMap.lookup_insert]
      by_cases h : id' = id
      · simp [h, KeyValue.key, KeyValue.value]
      · simp [h, KeyValue.key]
    | route p l => simp [KeyValue.key, get_route, Tables.add]
    | forwarding p l => cases hk
  | route r v =>
    cases k with
    | neighbor id' => simp [KeyValue.key, get_neighbor, Tables.add]
    | route p l =>
      have hi : (s.add (.route r v)).rt.entries = s.rt.entries.insert r v := rfl
      rw [get_route, get_route, hi, HashMap.lookup_insert]
      by_cases h : (p, l) = r
      · subst h; simp [KeyValue.key, KeyValue.value]
      · have h' : ¬ (p = r.1 ∧ l = r.2) := fun e => h (by rw [e.1, e.2])
        simp [h, h', KeyValue.key]
    | forwarding p l => cases hk
  | forwarding f v =>
    cases k with
    | neighbor id' => simp [KeyValue.key, get_neighbor, Tables.add]
    | route p l => simp [KeyValue.key, get_route, Tables.add]
    | forwarding p l => cases hk

theorem get_del {s : Tables} {k k' : Key} (hk : k.Hashed) : (s.del k').get k = if k = k' then none else s.get k := by
  cases k' with
  | neighbor id =>
    cases k with
    | neighbor id' =>
      rw [get_neighbor, get_neighbor, del_neighbor_nt, HashMap.lookup_erase]
      by_cases h : id' = id
      · simp [h]
      · simp [h]
    | route p l => simp [get_route, Tables.del]
    | forwarding p l => cases hk
  | route p' l' =>
    cases k with
    | neighbor id' => simp [get_neighbor, Tables.del]
    | route p l =>
      have hi : (s.del (.route p' l')).rt.entries = s.rt.entries.erase (p', l') := rfl
      rw [get_route, get_route, hi, HashMap.lookup_erase]
      by_cases h : p = p' ∧ l = l'
      · simp [h.1, h.2]
      · have h' : ¬ (p, l) = (p', l') := fun e => h (by simpa using e)
        simp [h, h']
    | forwarding p l => cases hk
  | forwarding p' l' =>
    cases k with
    | neighbor id' => simp [get_neighbor, Tables.del]
    | route p l => simp [get_route, Tables.del]
    | forwarding p l => cases hk

/-- The table a command is about. -/
def Key.table : Key → TableType
  | .neighbor _ => .neighborTable
  | .route _ _ => .routeTable
  | .forwarding _ _ => .forwardingTable

def StateCommand.table : StateCommand → TableType
  | .add kv => kv.key.table
  | .get k => k.table
  | .del k => k.table
  | .list tt => tt

/-- A command leaves the tables it is not about as they were. -/
theorem serve_frame {s t : Tables} {c : StateCommand} {r : Option Reply} (h : Serve s c t r) :
    (c.table ≠ .neighborTable → t.nt = s.nt) ∧ (c.table ≠ .routeTable → t.rt = s.rt) ∧
      (c.table ≠ .forwardingTable → t.ft = s.ft) := by
  cases h with
  | add kv => cases kv <;> simp [Tables.add, StateCommand.table, KeyValue.key, Key.table]
  | get k => simp
  | del k => cases k <;> simp [Tables.del, StateCommand.table, Key.table]
  | list tt kvs hl => simp

/-- A neighbor's answer is a neighbor: the conversion in `disco_handler` does not panic. -/
theorem get_neighbor_variant {s : Tables} {k : U32} {v : Value} (h : s.get (.neighbor k) = some v) :
    ∃ n, v = .neighbor n ∧ v.intoNeighbor = some n := by
  rw [get_neighbor] at h
  obtain ⟨n, -, rfl⟩ := Option.map_eq_some_iff.mp h
  exact ⟨n, rfl, rfl⟩

/-! ## The neighbor table alone -/

/-- The command adds or deletes `k`. -/
def StateCommand.Writes (c : StateCommand) (k : Key) : Prop := c = .del k ∨ ∃ kv, c = .add kv ∧ kv.key = k

def StateCommand.writesNeighbors : StateCommand → Bool
  | .add (.neighbor _ _) => true
  | .del (.neighbor _) => true
  | _ => false

def StateCommand.onNeighbors (t : NeighborTable) : StateCommand → NeighborTable
  | .add (.neighbor k v) => ⟨t.entries.insert k v⟩
  | .del (.neighbor k) => ⟨t.entries.erase k⟩
  | _ => t

theorem serve_nt {s t : Tables} {c : StateCommand} {r : Option Reply} (h : Serve s c t r) : t.nt = c.onNeighbors s.nt := by
  cases h with
  | add kv => cases kv <;> rfl
  | get k => rfl
  | del k => cases k <;> rfl
  | list tt kvs _ => rfl

theorem writesNeighbors_of_wants {c : StateCommand} (h : c.wants = true) : c.writesNeighbors = false := by
  cases c with
  | add kv => cases h
  | get k => rfl
  | del k => cases h
  | list tt => rfl

theorem onNeighbors_of_not_writes {c : StateCommand} (h : c.writesNeighbors = false) (t : NeighborTable) :
    c.onNeighbors t = t := by
  cases c with
  | add kv =>
    cases kv with
    | neighbor k v => cases h
    | route k v => rfl
    | forwarding k v => rfl
  | get k => rfl
  | del k =>
    cases k with
    | neighbor k => cases h
    | route p l => rfl
    | forwarding p l => rfl
  | list tt => rfl

theorem lookup_onNeighbors {c : StateCommand} {id : U32} (h : ¬ c.Writes (.neighbor id)) (t : NeighborTable) :
    (c.onNeighbors t).entries.lookup id = t.entries.lookup id := by
  cases c with
  | add kv =>
    cases kv with
    | neighbor k v =>
      have hne : id ≠ k := fun e => h (Or.inr ⟨_, rfl, by rw [e]; rfl⟩)
      exact (HashMap.lookup_insert _ _ _ _).trans (if_neg hne)
    | route k v => rfl
    | forwarding k v => rfl
  | get k => rfl
  | del k =>
    cases k with
    | neighbor k =>
      have hne : id ≠ k := fun e => h (Or.inl (by rw [e]))
      exact (HashMap.lookup_erase _ _ _).trans (if_neg hne)
    | route p l => rfl
    | forwarding p l => rfl
  | list tt => rfl

theorem serve_get_neighbor {s t : Tables} {id : U32} {r : Option Reply} (h : Serve s (.get (.neighbor id)) t r) :
    r = some (.value ((s.nt.entries.lookup id).map .neighbor)) := by
  cases h
  rw [get_neighbor]

/-! ## Lists -/

/-- What a table's list holds: each live key once, with its value. -/
def LiveList (get : Key → Option Value) (tt : TableType) (kvs : List KeyValue) : Prop :=
  (kvs.map KeyValue.key).Nodup ∧ ∀ kv, kv ∈ kvs ↔ kv.key.table = tt ∧ get kv.key = some kv.value

/-- The list of a hash map's entries, each made a `KeyValue` of one table. -/
theorem LiveList.of_lists {K V : Type} [DecidableEq K] {m : HashMap K V} {l : List (K × V)} (h : m.Lists l)
    {get : Key → Option Value} {tt : TableType} {key : K → Key} {mk : K × V → KeyValue} (hinj : Function.Injective key)
    (hkey : ∀ e, (mk e).key = key e.1) (htable : ∀ kv, kv.key.table = tt ↔ ∃ e, mk e = kv)
    (hget : ∀ e, get (key e.1) = some (mk e).value ↔ m.lookup e.1 = some e.2) : LiveList get tt (l.map mk) := by
  refine ⟨?_, fun kv => ?_⟩
  · have hk : (l.map mk).map KeyValue.key = (l.map (·.1)).map key := by
      rw [List.map_map, List.map_map]
      exact List.map_congr_left fun e _ => hkey e
    rw [hk]
    exact h.nodup.map hinj
  · have hlive : ∀ e, e ∈ l ↔ get (mk e).key = some (mk e).value := by
      intro e
      rw [hkey, hget]
      exact h.mem
    rw [List.mem_map, htable]
    refine ⟨fun ⟨e, he, hkv⟩ => ?_, fun ⟨⟨e, hkv⟩, hg⟩ => ?_⟩
    · rw [← hkv]
      exact ⟨⟨e, rfl⟩, (hlive e).mp he⟩
    · rw [← hkv] at hg
      exact ⟨e, (hlive e).mpr hg, hkv⟩

theorem lists_live {s : Tables} {tt : TableType} {kvs : List KeyValue} (ht : tt ≠ .forwardingTable)
    (h : s.Lists tt kvs) : LiveList s.get tt kvs := by
  cases tt with
  | neighborTable =>
    obtain ⟨l, hl, rfl⟩ := h
    have hlive : LiveList s.get .neighborTable ((l.map fun e => (e.1.id, e.2.neighbor)).map fun e => .neighbor e.1 e.2) := by
      refine .of_lists hl (fun a b e => by injection e) (fun e => rfl) (fun kv => ?_) fun e => ?_
      · cases kv <;> simp [KeyValue.key, Key.table]
      · rw [get_neighbor]
        simp [KeyValue.value]
    rwa [List.map_map] at hlive
  | routeTable =>
    obtain ⟨l, hl, rfl⟩ := h
    have hinj : Function.Injective fun k : U32 × U8 => Key.route k.1 k.2 := by
      intro a b e
      injection e with e1 e2
      exact Prod.ext e1 e2
    have hlive : LiveList s.get .routeTable
        ((l.map fun e => ((e.1.prefixIp, e.1.prefixLen), e.2.route)).map fun e => .route e.1 e.2) := by
      refine .of_lists hl hinj (fun e => rfl) (fun kv => ?_) fun e => ?_
      · cases kv <;> simp [KeyValue.key, Key.table]
      · rw [get_route]
        simp [KeyValue.value]
    rwa [List.map_map] at hlive
  | forwardingTable => exact absurd rfl ht

end FabricRs.State

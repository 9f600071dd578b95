/-
  FabricRs.Startup — from the names in the config to the interfaces, their readers and
  their senders (`Interface::new`, the loop in `main`, the one in `SendReceive::send_recv`).

  What the system answers is a parameter: `if_nametoindex`, pnet's list of interfaces and
  its channels, the connections to netlink and the messages it streams for an index.
  `Consistent` is what they have to do with one another. What `main` does between the two loops, loading and attaching the
  XDP program, is left to the system.

  - `startup`: in a consistent system no start panics. Either each name is usable, every
    interface is stored under its index and gets a reader and a sender, or the start ends
    with the error of the first name that is not.
-/

import FabricRs.Basic

namespace FabricRs

open Wire (Bytes)

/-! ## The system -/

inductive IpNetwork where
  | v4 (ip : Ipv4Addr)
  | v6

def IpNetwork.v4? : IpNetwork → Option Ipv4Addr
  | .v4 ip => some ip
  | .v6 => none

/-- pnet's `NetworkInterface`. -/
structure NetworkInterface where
  name : String
  index : U32
  ips : List IpNetwork

inductive LinkAttribute where
  | address (addr : Bytes)
  | other

def LinkAttribute.address? : LinkAttribute → Option Bytes
  | .address addr => some addr
  | .other => none

/-- What `pnet::datalink::channel` returns. -/
inductive Channel where
  | ethernet
  | other
  | error
  deriving DecidableEq

structure Os where
  ifNametoindex : String → U32
  interfaces : List NetworkInterface
  /-- `new_connection()`, before the links with an index are asked for; an error's text. -/
  connection : U32 → Except String Unit
  /-- The stream of the links with an index; `none` is an error in it. -/
  links : U32 → List (Option (List LinkAttribute))
  channel : NetworkInterface → Channel

/-! ## `Interface::new` -/

inductive IndexError where
  /-- The name holds a zero byte. -/
  | nul
  /-- `Interface not found {}`. -/
  | notFound (name : String)

inductive MacError where
  | netlink
  /-- `Expected a Vec of length {} but it was {}`. -/
  | length (expected was : Nat)

inductive Fault where
  /-- `failed to get interface index: {:?}`. -/
  | index (e : IndexError)
  /-- `failed to get interface ip: no ip found`. -/
  | ip
  /-- `failed to get local mac`. -/
  | noMac
  /-- `failed to get local mac: {:?}`. -/
  | mac (e : MacError)
  | panic (message : String)

def getInterfaceIndex (os : Os) (name : String) : Except IndexError U32 :=
  if name.toList.contains '\x00' then .error .nul
  else if os.ifNametoindex name = 0 then .error (.notFound name)
  else .ok (os.ifNametoindex name)

/-- The first IPv4 address. -/
def getInterfaceIp (os : Os) (name : String) : Except Fault Ipv4Addr :=
  match os.interfaces.find? (·.name == name) with
  | none => .error (.panic "interface not found")
  | some interface =>
    match interface.ips.findSome? IpNetwork.v4? with
    | some ip => .ok ip
    | none => .error .ip

def getLocalMac (os : Os) (index : U32) : Except Fault (Option MacAddr) := do
  (os.connection index).mapError fun e => .panic ("called `Result::unwrap()` on an `Err` value: " ++ e)
  match os.links index with
  | [] => .ok none
  | none :: _ => .error (.mac .netlink)
  | [some msg] =>
    match msg.findSome? LinkAttribute.address? with
    | none => .ok none
    | some addr =>
      if addr.length = 6 then .ok (some (MacAddr.codec.dec addr)) else .error (.mac (.length 6 addr.length))
  | some _ :: none :: _ => .error (.mac .netlink)
  | some _ :: some _ :: _ => .error (.panic "assertion failed: links.try_next().await?.is_none()")

def Interface.new (os : Os) (name : String) : Except Fault Interface := do
  let ifidx ← (getInterfaceIndex os name).mapError .index
  let ip ← getInterfaceIp os name
  match ← getLocalMac os ifidx with
  | some mac => return { ifidx, ip, mac }
  | none => throw .noMac

/-! ## The two loops -/

namespace Startup

/-- `main`'s `interface_list`. -/
def load (os : Os) (names : List String) : Except Fault Interfaces :=
  names.foldlM (fun interfaceList name => do
    let interface ← Interface.new os name
    return interfaceList.insert interface) .empty

/-- One turn of `send_recv`'s loop: the index the sender is stored under and the reader
    tags its frames with. -/
def openLink (os : Os) (interface : Interface) : Except Fault U32 :=
  match os.interfaces.find? (·.index == interface.ifidx) with
  | none => .error (.panic "interface not found")
  | some dataLinkInterface =>
    match os.channel dataLinkInterface with
    | .ethernet => .ok interface.ifidx
    | .other => .error (.panic "Unknown channel type")
    | .error => .error (.panic "Error happened")

def sendRecv (os : Os) (l : List (U32 × Interface)) : Except Fault (List U32) := l.mapM fun e => openLink os e.2

structure Consistent (os : Os) : Prop where
  /-- A name with an index is listed under it. -/
  listed : ∀ name, os.ifNametoindex name ≠ 0 → ∃ e ∈ os.interfaces, e.name = name ∧ e.index = os.ifNametoindex name
  indices : ∀ e ∈ os.interfaces, ∀ e' ∈ os.interfaces, e.index = e'.index → e = e'
  connection : ∀ k, os.connection k = .ok ()
  links : ∀ k, (os.links k).length ≤ 1
  channel : ∀ e ∈ os.interfaces, os.channel e = .ethernet

variable {os : Os} {name : String} {i : Interface}

section

variable {ε α β : Type} {x : Except ε α} {f : α → Except ε β}

theorem bind_ok {b : β} (h : x >>= f = .ok b) : ∃ a, x = .ok a ∧ f a = .ok b := by
  cases x with
  | error e => cases h
  | ok a => exact ⟨a, rfl, h⟩

theorem bind_error {e : ε} (h : x >>= f = .error e) : x = .error e ∨ ∃ a, x = .ok a ∧ f a = .error e := by
  cases x with
  | error e' =>
    cases h
    exact Or.inl rfl
  | ok a => exact Or.inr ⟨a, rfl, h⟩

end

/-- A name with an index is listed, once, under it. -/
theorem index_listed (hc : Consistent os) {k : U32} (h : getInterfaceIndex os name = .ok k) :
    ∃ e ∈ os.interfaces, e.name = name ∧ e.index = k := by
  unfold getInterfaceIndex at h
  split at h
  · cases h
  · split at h
    · cases h
    · obtain ⟨e, he, hn, hi⟩ := hc.listed name ‹_›
      exact ⟨e, he, hn, hi.trans (Except.ok.inj h)⟩

theorem mapError_ok {ε ε' α : Type} {x : Except ε α} {f : ε → ε'} {a : α} (h : x.mapError f = .ok a) : x = .ok a := by
  cases x with
  | error e => cases h
  | ok b =>
    cases h
    rfl

theorem new_listed (hc : Consistent os) (h : Interface.new os name = .ok i) :
    ∃ e ∈ os.interfaces, e.name = name ∧ e.index = i.ifidx := by
  obtain ⟨ifidx, hx, h⟩ := bind_ok h
  obtain ⟨ip, -, h⟩ := bind_ok h
  obtain ⟨mac, -, h⟩ := bind_ok h
  cases mac with
  | none => cases h
  | some mac =>
    cases h
    exact index_listed hc (mapError_ok hx)

/-- Two usable names of one index are the same. -/
theorem new_inj (hc : Consistent os) {name' : String} {i' : Interface} (h : Interface.new os name = .ok i)
    (h' : Interface.new os name' = .ok i') (hix : i.ifidx = i'.ifidx) : i = i' := by
  obtain ⟨e, he, hn, hi⟩ := new_listed hc h
  obtain ⟨e', he', hn', hi'⟩ := new_listed hc h'
  obtain rfl := hc.indices e he e' he' (hi.trans (hix.trans hi'.symm))
  rw [← hn, hn'] at h
  rw [h] at h'
  exact Except.ok.inj h'

theorem new_no_panic (hc : Consistent os) {m : String} : Interface.new os name ≠ .error (.panic m) := by
  intro h
  rcases bind_error h with hx | ⟨ifidx, hx, h⟩
  · cases hg : getInterfaceIndex os name with
    | error e => rw [hg] at hx; cases hx
    | ok k => rw [hg] at hx; cases hx
  obtain ⟨e, he, hn, -⟩ := index_listed hc (mapError_ok hx)
  rcases bind_error h with hp | ⟨ip, -, h⟩
  · unfold getInterfaceIp at hp
    split at hp
    · rename_i hf
      exact List.find?_eq_none.mp hf e he (beq_iff_eq.mpr hn)
    · split at hp <;> cases hp
  rcases bind_error h with hm | ⟨mac, -, h⟩
  · have hl := hc.links ifidx
    rcases bind_error hm with hm | ⟨-, -, hm⟩
    · rw [hc.connection] at hm
      cases hm
    split at hm
    · cases hm
    · cases hm
    · split at hm
      · cases hm
      · split at hm <;> cases hm
    · cases hm
    · rename_i hk
      rw [hk, List.length_cons, List.length_cons] at hl
      omega
  · cases mac <;> cases h

theorem openLink_eq (hc : Consistent os) (h : Interface.new os name = .ok i) : openLink os i = .ok i.ifidx := by
  obtain ⟨e, he, -, hi⟩ := new_listed hc h
  unfold openLink
  cases hf : os.interfaces.find? (·.index == i.ifidx) with
  | none => exact absurd (beq_iff_eq.mpr hi) (List.find?_eq_none.mp hf e he)
  | some e' => simp only [hc.channel e' (List.mem_of_find?_eq_some hf)]

theorem load_snoc (names : List String) (name : String) : load os (names ++ [name]) = (do
    let interfaceList ← load os names
    let interface ← Interface.new os name
    return interfaceList.insert interface) := by
  unfold load
  rw [List.foldlM_append]
  refine bind_congr fun l => ?_
  rw [List.foldlM_cons]
  exact bind_pure _

/-- The loop in `main` ends with a map of all names' interfaces or with the error of the
    first unusable name. -/
theorem load_cases (hc : Consistent os) (names : List String) :
    (∃ interfaces, load os names = .ok interfaces ∧ (∀ name ∈ names, ∃ i, Interface.new os name = .ok i) ∧
      ∀ k i, interfaces.get k = some i ↔ i.ifidx = k ∧ ∃ name ∈ names, Interface.new os name = .ok i) ∨
    ∃ pre name post e, names = pre ++ name :: post ∧ (∀ n ∈ pre, ∃ i, Interface.new os n = .ok i) ∧
      Interface.new os name = .error e ∧ load os names = .error e := by
  induction names using List.reverseRecOn with
  | nil =>
    refine Or.inl ⟨.empty, rfl, by simp, fun k i => ⟨fun h => (by cases h), fun ⟨_, n, hn, _⟩ => absurd hn List.not_mem_nil⟩⟩
  | append_singleton names name ih =>
    rw [load_snoc]
    rcases ih with ⟨interfaces, hl, hall, hget⟩ | ⟨pre, n, post, e, rfl, hpre, hn, hl⟩
    · rw [hl]
      cases hi : Interface.new os name with
      | error e => exact Or.inr ⟨names, name, [], e, rfl, hall, hi, rfl⟩
      | ok i =>
        refine Or.inl ⟨interfaces.insert i, rfl, fun n hn => ?_, fun k j => ?_⟩
        · rcases List.mem_append.mp hn with hn | hn
          · exact hall n hn
          · rw [List.mem_singleton.mp hn]
            exact ⟨i, hi⟩
        · rw [Interfaces.get_insert]
          by_cases hk : k = i.ifidx
          · rw [if_pos hk, Option.some.injEq]
            refine ⟨fun he => ⟨by rw [← he, hk], name, by simp, by rw [← he]; exact hi⟩, fun ⟨hj, n, _, hn⟩ => ?_⟩
            exact new_inj hc hi hn (hk.symm.trans hj.symm)
          · rw [if_neg hk, hget]
            refine ⟨fun ⟨hj, n, hn, h⟩ => ⟨hj, n, List.mem_append_left _ hn, h⟩, fun ⟨hj, n, hn, h⟩ => ⟨hj, n, ?_, h⟩⟩
            rcases List.mem_append.mp hn with hn | hn
            · exact hn
            · rw [List.mem_singleton.mp hn, hi] at h
              cases h
              exact absurd hj.symm hk
    · exact Or.inr ⟨pre, n, post ++ [name], e, by simp, hpre, hn, by rw [hl]; rfl⟩

/-- In a consistent system a start ends in one of two ways: each name is usable, exactly
    their interfaces are stored, each under its index, and each gets a reader and a sender
    of it, in whatever order the map iterates; or the start fails with the error of the
    first name that is not usable, which is no panic. -/
theorem startup (hc : Consistent os) (names : List String) :
    (∃ interfaces, load os names = .ok interfaces ∧ (∀ name ∈ names, ∃ i, Interface.new os name = .ok i) ∧
      (∀ k i, interfaces.get k = some i ↔ i.ifidx = k ∧ ∃ name ∈ names, Interface.new os name = .ok i) ∧
      ∀ l, interfaces.map.Lists l → sendRecv os l = .ok (l.map (·.1))) ∨
    ∃ pre name post e, names = pre ++ name :: post ∧ (∀ n ∈ pre, ∃ i, Interface.new os n = .ok i) ∧
      Interface.new os name = .error e ∧ (∀ m, e ≠ .panic m) ∧ load os names = .error e := by
  rcases load_cases hc names with ⟨interfaces, hl, hall, hget⟩ | ⟨pre, name, post, e, hn, hpre, he, hl⟩
  · refine Or.inl ⟨interfaces, hl, hall, hget, fun l hlist => ?_⟩
    have hopen : ∀ x ∈ l, openLink os x.2 = .ok x.1 := by
      intro x hx
      obtain ⟨hk, n, -, hn⟩ := (hget x.1 x.2).mp (hlist.mem.mp hx)
      rw [← hk]
      exact openLink_eq hc hn
    clear hlist
    induction l with
    | nil => rfl
    | cons x l ih =>
      unfold sendRecv at ih ⊢
      rw [List.mapM_cons, hopen x List.mem_cons_self, ih fun y hy => hopen y (List.mem_cons_of_mem _ hy)]
      rfl
  · exact Or.inr ⟨pre, name, post, e, hn, hpre, he, fun m hm => new_no_panic hc (hm ▸ he), hl⟩

/-- A machine with two links. -/
def eth1 : NetworkInterface := ⟨"eth1", 1, [.v6, .v4 ⟨10, 0, 0, 1⟩]⟩
def eth2 : NetworkInterface := ⟨"eth2", 2, [.v4 ⟨10, 0, 1, 1⟩]⟩
def twoNics : Os where
  ifNametoindex name := if name = "eth1" then 1 else if name = "eth2" then 2 else 0
  interfaces := [eth1, eth2]
  connection _ := .ok ()
  links k :=
    if k = 1 then [some [.other, .address [2, 0, 0, 0, 0, 1]]]
    else if k = 2 then [some [.address [2, 0, 0, 0, 0, 2]]]
    else []
  channel _ := .ethernet

theorem twoNics_consistent : Consistent twoNics where
  listed name h := by
    by_cases h1 : name = "eth1"
    · subst h1
      exact ⟨eth1, List.mem_cons_self, rfl, rfl⟩
    by_cases h2 : name = "eth2"
    · subst h2
      exact ⟨eth2, List.mem_cons_of_mem _ List.mem_cons_self, rfl, rfl⟩
    · exact absurd ((if_neg h1).trans (if_neg h2)) h
  indices e he e' he' h := List.inj_on_of_nodup_map (show ([eth1, eth2].map (·.index)).Nodup by decide) he he' h
  connection _ := rfl
  links k := by
    show (if k = 1 then _ else if k = 2 then _ else []).length ≤ 1
    split
    · exact Nat.le_refl _
    · split
      · exact Nat.le_refl _
      · exact Nat.zero_le _
  channel _ _ := rfl

theorem startup_twoNics : ∃ interfaces, load twoNics ["eth1", "eth2"] = .ok interfaces ∧
    interfaces.get 1 = some ⟨1, ⟨10, 0, 0, 1⟩, ⟨2, 0, 0, 0, 0, 1⟩⟩ ∧
    interfaces.get 2 = some ⟨2, ⟨10, 0, 1, 1⟩, ⟨2, 0, 0, 0, 0, 2⟩⟩ ∧
    ∀ l, interfaces.map.Lists l → sendRecv twoNics l = .ok (l.map (·.1)) := by
  have h1 : Interface.new twoNics "eth1" = .ok ⟨1, ⟨10, 0, 0, 1⟩, ⟨2, 0, 0, 0, 0, 1⟩⟩ := rfl
  have h2 : Interface.new twoNics "eth2" = .ok ⟨2, ⟨10, 0, 1, 1⟩, ⟨2, 0, 0, 0, 0, 2⟩⟩ := rfl
  rcases startup twoNics_consistent ["eth1", "eth2"] with
    ⟨interfaces, hl, -, hget, hopen⟩ | ⟨pre, name, post, e, hn, -, he, -, -⟩
  · exact ⟨interfaces, hl, (hget 1 _).mpr ⟨rfl, "eth1", List.mem_cons_self, h1⟩,
      (hget 2 _).mpr ⟨rfl, "eth2", List.mem_cons_of_mem _ List.mem_cons_self, h2⟩, hopen⟩
  · have hmem : name ∈ ["eth1", "eth2"] := by rw [hn]; simp
    rcases List.mem_pair.mp hmem with rfl | rfl
    · rw [h1] at he
      cases he
    · rw [h2] at he
      cases he

end Startup

end FabricRs

/-
  FabricRs.UserSpace.Receiver — `UserSpace::receiver`, the only task that writes the
  neighbor table.

  Task 0 of `FabricRs.UserSpace.Atomicity` is the receiver; every other one gets and lists
  what it likes and writes the other two tables. So nothing stands between the receiver's
  get of a neighbor and its add, and the handlers' theorem applies to every run.

  - `receiver_prefix`: at every moment the neighbor table is what some of the hellos taken
    so far, the first ones, leave.
  - `receiver_table`: once all frames are handled it is what handling them alone leaves.
  - `receiver_last_writer`: the table is the last-writer map of the hellos on the wire.
  - `handle_all`: any frames can be handled to the end.
-/

import FabricRs.UserSpace.Atomicity

namespace FabricRs.UserSpace

open State
open Mailbox (Prog Req Runs Reach Step Agent Known ord)
open Function (update)

/-- The receiver, and other tasks: those of `cli` are `CliClient`s. -/
def receiverKind (cli : Nat → Bool) (c : Nat) : Kind :=
  if c = 0 then .handler else if cli c then .cliClient else .stateClient

def NotNeighbors (cmd : StateCommand) : Prop := cmd.writesNeighbors = false

variable {interfaces : Interfaces} {cli : Nat → Bool} {lpmTrie : LpmTrie}

variable (interfaces cli lpmTrie) in
/-- The receiver's states, with others' calls in any order between its own. -/
def Receiving (s : Sys) : Prop := Reach (server lpmTrie) (program interfaces (receiverKind cli) NotNeighbors) s

/-- All frames taken are handled, down to the actor. -/
structure Drained (s : Sys) : Prop where
  idle : (s.loc 0).handler = .idle
  served : ∀ r ∈ s.q.buf, r.who ≠ 0

theorem receiverKind_handler {c : Nat} : receiverKind cli c = .handler ↔ c = 0 := by
  unfold receiverKind
  by_cases h : c = 0
  · simp [h]
  · cases cli c <;> simp [h]

theorem not_writes {c : StateCommand} (h : c.writesNeighbors = false) (id : U32) : ¬ c.Writes (.neighbor id) := by
  intro hw
  rcases hw with rfl | ⟨kv, rfl, hk⟩
  · cases h
  · cases kv with
    | neighbor k v => cases h
    | route k v => cases hk
    | forwarding k v => cases hk

/-- Only the receiver writes neighbors. -/
theorem others_quiet {s : Sys} (h : Receiving interfaces cli lpmTrie s) {r : Req StateCommand} (hr : r ∈ served s)
    (hw : r.who ≠ 0) : r.call.writesNeighbors = false := by
  have hk := (Mailbox.ids h).ord r (List.mem_append_left _ hr)
  have hc := Mailbox.calls (program_calls interfaces (receiverKind cli) NotNeighbors) h r hk
  unfold Calls at hc
  cases he : receiverKind cli r.who with
  | handler => exact absurd (receiverKind_handler.mp he) hw
  | stateClient =>
    simp only [he] at hc
    exact hc
  | cliClient =>
    simp only [he] at hc
    obtain ⟨tt, hc⟩ := hc
    rw [hc]
    rfl

theorem receiver_undisturbed {s : Sys} (h : Receiving interfaces cli lpmTrie s) :
    Undisturbed (receiverKind cli) (served s) := by
  refine undisturbed_of_apart (fun _ => 0) fun r hr id hw => ?_
  by_contra h0
  exact not_writes (others_quiet h hr h0) id hw

/-! ## The table -/

/-- Hellos heard one after another, alone. -/
def hearAll (hs : List (U32 × NeighborInterface)) : NeighborTable := hs.foldl (fun t x => hear t x.1 x.2) .new

theorem receiveAll_eq (fs : List Frame) : receiveAll interfaces fs = hearAll (fs.filterMap (hello interfaces)) := by
  induction fs using List.reverseRecOn with
  | nil => rfl
  | append_singleton fs f ih =>
    rw [receiveAll_snoc, List.filterMap_append, ih]
    unfold receive hearAll
    cases h : hello interfaces f with
    | none => simp [h]
    | some x => simp [h]

/-- Turns of one task alone are its hellos. -/
theorem alone_eq {acts : List Act} (h : ∀ a ∈ acts, ∃ id ni, a = .hello 0 id ni) :
    alone acts = hearAll (acts.filterMap (Act.helloOf 0)) := by
  induction acts using List.reverseRecOn with
  | nil => rfl
  | append_singleton acts a ih =>
    obtain ⟨id, ni, rfl⟩ := h a (by simp)
    rw [alone_snoc, ih fun b hb => h b (List.mem_append_left _ hb), List.filterMap_append]
    simp [hearAll, Act.run, Act.helloOf]

theorem receiver_serial {s : Sys} (h : Receiving interfaces cli lpmTrie s) :
    ∃ hs, s.srv.nt = hearAll hs ∧ hs <+: (s.loc 0).seen.filterMap (hello interfaces) ∧
      (Drained s → hs = (s.loc 0).seen.filterMap (hello interfaces)) := by
  obtain ⟨acts, hnt, hcalls, hno, hhellos⟩ := serial h (receiver_undisturbed h)
  have hall : ∀ a ∈ acts, ∃ id ni, a = .hello 0 id ni := by
    intro a ha
    cases a with
    | hello c id ni =>
      by_cases hc : c = 0
      · exact ⟨id, ni, by rw [hc]⟩
      · have hn := hno c fun e => hc (receiverKind_handler.mp e)
        have := Act.mem_helloOf.mpr ha
        rw [hn] at this
        cases this
    | call c cmd =>
      have hm : cmd ∈ acts.filterMap (Act.callOf c) := List.mem_filterMap.mpr ⟨_, ha, if_pos rfl⟩
      rw [hcalls c] at hm
      split at hm
      · cases hm
      · rename_i hc
        obtain ⟨r, hr, -⟩ := List.mem_map.mp hm
        obtain ⟨hr, hw⟩ := List.mem_filter.mp hr
        obtain ⟨hr, hwr⟩ := List.mem_filter.mp hr
        have h0 : r.who ≠ 0 := fun e => hc (receiverKind_handler.mpr (by rw [← e]; exact (of_decide_eq_true hw).symm))
        rw [others_quiet h hr h0] at hwr
        cases hwr
  obtain ⟨hpre, heq⟩ := hhellos 0 (receiverKind_handler.mpr rfl)
  exact ⟨_, hnt.trans (alone_eq hall), hpre, fun hd => heq hd.idle hd.served⟩

theorem receiver_prefix {s : Sys} (h : Receiving interfaces cli lpmTrie s) :
    ∃ hs, s.srv.nt = hearAll hs ∧ hs <+: (s.loc 0).seen.filterMap (hello interfaces) := by
  obtain ⟨hs, h1, h2, -⟩ := receiver_serial h
  exact ⟨hs, h1, h2⟩

theorem receiver_table {s : Sys} (h : Receiving interfaces cli lpmTrie s) (hd : Drained s) :
    s.srv.nt = receiveAll interfaces (s.loc 0).seen := by
  obtain ⟨hs, h1, -, h2⟩ := receiver_serial h
  rw [h1, h2 hd, receiveAll_eq]

/-! ## The last-writer map -/

/-- `t` holds, for each id and MAC, what the last hello of them on the wire announced, with
    the interface it was heard on, and nothing else. -/
structure LastWriter (interfaces : Interfaces) (fs : List Frame) (t : NeighborTable) : Prop where
  entry : ∀ id mac e, entry t id mac = some e ↔
    ∃ pre f post ip i, fs = pre ++ f :: post ∧ IsHello f id ip mac ∧ interfaces.get f.ifidx = some i ∧
      e = ⟨ip, mac, i.ip.toU32, i.mac, i.ifidx⟩ ∧ ∀ g ∈ post, ∀ ip', IsHello g id ip' mac → interfaces.get g.ifidx = none
  /-- No neighbor without interfaces. -/
  ids : ∀ id, (t.entries.lookup id).isSome → ∃ mac e, UserSpace.entry t id mac = some e

theorem writes_eq_some {f : Frame} {id : U32} {mac : MacAddr} {e : NeighborInterface} :
    writes interfaces f (id, mac) = some (some e) ↔
      ∃ ip i, IsHello f id ip mac ∧ interfaces.get f.ifidx = some i ∧ e = ⟨ip, mac, i.ip.toU32, i.mac, i.ifidx⟩ := by
  refine ⟨fun h => ?_, fun ⟨ip, i, hw, hi, he⟩ => ?_⟩
  · unfold writes at h
    cases hf : hello interfaces f with
    | none => simp [hf] at h
    | some x =>
      simp only [hf, Option.ite_none_right_eq_some, Option.some.injEq] at h
      obtain ⟨hk, rfl⟩ := h
      obtain ⟨ip, mac', i, hw, hi, hn⟩ := hello_iff.mp (by rw [hf] : hello interfaces f = some (x.1, x.2))
      cases hk
      rw [hn]
      exact ⟨ip, i, hw, hi, rfl⟩
  · unfold writes
    rw [hello_of_wire hw hi, he]
    exact if_pos rfl

theorem writes_eq_none {f : Frame} {id : U32} {mac : MacAddr} :
    writes interfaces f (id, mac) = none ↔ ∀ ip, IsHello f id ip mac → interfaces.get f.ifidx = none := by
  constructor
  · intro h ip hw
    cases hi : interfaces.get f.ifidx with
    | none => rfl
    | some i =>
      rw [writes_eq_some.mpr ⟨ip, i, hw, hi, rfl⟩] at h
      cases h
  · intro h
    cases hwr : writes interfaces f (id, mac) with
    | none => rfl
    | some o =>
      cases o with
      | none =>
        unfold writes at hwr
        split at hwr
        · cases hwr
        · split at hwr <;> cases hwr
      | some e =>
        obtain ⟨ip, i, hw, hi, -⟩ := writes_eq_some.mp hwr
        rw [h ip hw] at hi
        cases hi

theorem receiveAll_ids {fs : List Frame} {id : U32} (h : ((receiveAll interfaces fs).entries.lookup id).isSome) :
    ∃ mac e, entry (receiveAll interfaces fs) id mac = some e := by
  induction fs using List.reverseRecOn with
  | nil => cases h
  | append_singleton fs f ih =>
    rw [receiveAll_snoc] at h ⊢
    unfold receive at h ⊢
    cases hf : hello interfaces f with
    | none =>
      simp only [hf] at h
      exact ih h
    | some x =>
      simp only [hf] at h
      show ∃ mac e, entry (hear _ x.1 x.2) (id, mac).1 (id, mac).2 = some e
      by_cases hid : id = x.1
      · exact ⟨x.2.neighborMac, x.2, by rw [entry_hear, if_pos (by rw [hid])]⟩
      · have h' : ((receiveAll interfaces fs).entries.lookup id).isSome := by
          unfold hear at h
          rwa [HashMap.lookup_insert, if_neg hid] at h
        obtain ⟨mac, e, he⟩ := ih h'
        refine ⟨mac, e, ?_⟩
        rw [entry_hear, if_neg fun ek => hid (congrArg Prod.fst ek), he]

theorem receiveAll_lastWriter (fs : List Frame) : LastWriter interfaces fs (receiveAll interfaces fs) := by
  refine ⟨fun id mac e => ?_, fun id => receiveAll_ids⟩
  rw [entry_receiveAll interfaces fs (id, mac), LastWrite.value_eq_some]
  refine ⟨fun ⟨pre, f, post, hfs, hf, hp⟩ => ?_, fun ⟨pre, f, post, ip, i, hfs, hw, hi, he, hp⟩ => ?_⟩
  · obtain ⟨ip, i, hw, hi, he⟩ := writes_eq_some.mp hf
    exact ⟨pre, f, post, ip, i, hfs, hw, hi, he, fun g hg => writes_eq_none.mp (hp g hg)⟩
  · exact ⟨pre, f, post, hfs, writes_eq_some.mpr ⟨ip, i, hw, hi, he⟩, fun g hg => writes_eq_none.mpr (hp g hg)⟩

/-! ## Any frames can be handled -/

/-- From a state where nothing is under way one more frame can be handled to the end. -/
theorem handle_one {s : Sys} (h : Receiving interfaces cli lpmTrie s) (hq : s.q.buf = []) (hpc : s.pc 0 = .idle)
    (hh : (s.loc 0).handler = .idle) (f : Frame) : ∃ t, Receiving interfaces cli lpmTrie t ∧
      t.srv.nt = receive interfaces s.srv.nt f ∧ t.q.buf = [] ∧ t.pc = s.pc ∧
      t.loc = update s.loc 0 ⟨(s.loc 0).seen ++ [f], .idle⟩ ∧ s.log <+: t.log := by
  have hk : receiverKind cli 0 = .handler := receiverKind_handler.mpr rfl
  have htake := take_turn h hk hpc hh f
  have hstart : (update s.loc 0 ⟨(s.loc 0).seen ++ [f], .start (hello interfaces f)⟩ 0).handler = .start (hello interfaces f) := by
    rw [Function.update_self]
  obtain ⟨t, ht, hend⟩ := handle_turn (reach_keeps 0) htake hk hq hpc hstart
  refine ⟨t, ht, hend.nt, hend.q, hend.pc, ?_, hend.log⟩
  rw [hend.loc]
  simp only [Function.update_self, Function.update_idem]

variable (interfaces cli lpmTrie) in
theorem handle_all (fs : List Frame) :
    ∃ s, Receiving interfaces cli lpmTrie s ∧ s.q.buf = [] ∧ s.pc 0 = .idle ∧ s.loc 0 = ⟨fs, .idle⟩ := by
  induction fs using List.reverseRecOn with
  | nil => exact ⟨_, .init rfl, rfl, rfl, rfl⟩
  | append_singleton fs f ih =>
    obtain ⟨s, h, hq, hpc, hloc⟩ := ih
    obtain ⟨t, ht, -, hq', hpc', hloc', -⟩ := handle_one h hq hpc (by rw [hloc]) f
    exact ⟨t, ht, hq', by rw [hpc', hpc], by rw [hloc', Function.update_self, hloc]⟩

/-! ## The theorem -/

/-- Once the frames taken are handled, whatever the other tasks did meanwhile, the table
    is their last-writer map. One frame more, handled, changes nothing unless it is a
    hello heard on a configured interface; then it leaves every entry of another id or MAC,
    and changes nothing either if its entry is there already. -/
theorem receiver_last_writer {s : Sys} (h : Receiving interfaces cli lpmTrie s) (hd : Drained s) :
    LastWriter interfaces (s.loc 0).seen s.srv.nt ∧
    ∀ t f, Receiving interfaces cli lpmTrie t → Drained t → (t.loc 0).seen = (s.loc 0).seen ++ [f] →
      ((∀ id ip mac, IsHello f id ip mac → interfaces.get f.ifidx = none) → t.srv.nt = s.srv.nt) ∧
      ∀ id ip mac i, IsHello f id ip mac → interfaces.get f.ifidx = some i →
        (∀ id' mac', (id', mac') ≠ (id, mac) → entry t.srv.nt id' mac' = entry s.srv.nt id' mac') ∧
        (entry s.srv.nt id mac = some ⟨ip, mac, i.ip.toU32, i.mac, i.ifidx⟩ → t.srv.nt = s.srv.nt) := by
  rw [receiver_table h hd]
  refine ⟨receiveAll_lastWriter _, fun t f ht hdt hseen => ?_⟩
  rw [receiver_table ht hdt, hseen, receiveAll_snoc]
  constructor
  · intro hno
    have hf : hello interfaces f = none := by
      cases hf : hello interfaces f with
      | none => rfl
      | some x =>
        obtain ⟨ip, mac, i, hw, hi, -⟩ := hello_iff.mp (by rw [hf] : hello interfaces f = some (x.1, x.2))
        rw [hno x.1 ip mac hw] at hi
        cases hi
    unfold receive
    rw [hf]
  · intro id ip mac i hw hi
    have hf := hello_of_wire hw hi
    unfold receive
    simp only [hf]
    refine ⟨fun id' mac' hne => ?_, fun he => hear_again he⟩
    exact (entry_hear _ id _ (id', mac')).trans (if_neg hne)

/-- An empty frame, two hellos of one node and one on an interface that is not there. -/
theorem receiver_last_writer_four :
    ∃ s : Sys, (s.loc 0).seen = [⟨1, []⟩, helloFrame 1 7 0x0a00000b mac1, helloFrame 1 7 0x0a00000b mac2,
        helloFrame 9 7 0x0a00000b mac1] ∧
      LastWriter oneLink (s.loc 0).seen s.srv.nt ∧
      ∀ t f, Receiving oneLink (fun _ => false) noRoutes t → Drained t → (t.loc 0).seen = (s.loc 0).seen ++ [f] →
        ((∀ id ip mac, IsHello f id ip mac → oneLink.get f.ifidx = none) → t.srv.nt = s.srv.nt) ∧
        ∀ id ip mac i, IsHello f id ip mac → oneLink.get f.ifidx = some i →
          (∀ id' mac', (id', mac') ≠ (id, mac) → entry t.srv.nt id' mac' = entry s.srv.nt id' mac') ∧
          (entry s.srv.nt id mac = some ⟨ip, mac, i.ip.toU32, i.mac, i.ifidx⟩ → t.srv.nt = s.srv.nt) := by
  obtain ⟨s, h, hq, -, hloc⟩ := handle_all oneLink (fun _ => false) noRoutes [⟨1, []⟩,
    helloFrame 1 7 0x0a00000b mac1, helloFrame 1 7 0x0a00000b mac2, helloFrame 9 7 0x0a00000b mac1]
  exact ⟨s, by rw [hloc], receiver_last_writer h ⟨by rw [hloc], by rw [hq]; simp⟩⟩

end FabricRs.UserSpace

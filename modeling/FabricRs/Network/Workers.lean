/-
  FabricRs.Network.Workers — the tasks on the runtime's worker threads.

  A task runs on a worker from when it is scheduled until it awaits. Two calls block
  without awaiting, and keep their worker: `dl_rx.next()` in a reader that has no frame in
  its hand, and `prompt()` in the CLI prompt between two commands. A state is pinned when
  every worker is kept so and yet a frame or a command waits for a task that could move.

  - `held_le`: no more tasks block at once than there are interfaces and the prompt.
  - `pinned_reachable`: that many workers, or fewer, can all be kept while a frame waits.
  - `pinned_iff`: so the runtime is safe exactly with two workers more than interfaces, or
    with no interface at all.
-/

import FabricRs.Network.Tasks

namespace FabricRs.Network

open State UserSpace SendReceive
open Lts (Chan)
open Mailbox (Agent Known)
open Function (update)

/-- The network, and the tasks that hold a worker. -/
structure Rt where
  net : Net
  held : List Task

/-- Inside a call that keeps its worker. -/
def Blocking (n : Net) : Task → Prop
  | .reader k => n.pipe.hand k = none
  | .prompt => n.mail.pc 1 = .idle
  | _ => False

variable (interfaces : Interfaces) (id : U32) (srClient : SendReceive.Client) (lpmTrie : LpmTrie) (W : Nat)

/-- The tasks there are. -/
def Spawned : Task → Prop
  | .reader k => (interfaces.get k).isSome
  | _ => True

namespace Rt

inductive Step : Rt → Rt → Prop
  /-- A free worker takes a task up. -/
  | schedule {s} (τ : Task) : Spawned interfaces τ → τ ∉ s.held → s.held.length < W →
      Step s { s with held := τ :: s.held }
  | run {s} (τ : Task) (c : Cause) (n : Net) : τ ∈ s.held → Network.Step interfaces id srClient lpmTrie τ c s.net n →
      Step s { s with net := n }
  | await {s} (τ : Task) : τ ∈ s.held → ¬ Blocking s.net τ → Step s { s with held := s.held.erase τ }

abbrev Reach (s : Rt) : Prop :=
  Lts.Reach (· = ⟨Network.init interfaces lpmTrie, []⟩) (Step interfaces id srClient lpmTrie W) s

end Rt

/-- A frame read is on its way to the receiver. -/
def FrameWaits (n : Net) : Prop :=
  (∃ k f, n.pipe.hand k = some f) ∨ n.pipe.rq.buf ≠ [] ∨ (∃ f, n.pipe.relay = some f) ∨ n.pipe.q.buf ≠ []

/-- Every worker is kept by a blocking call, and there is work for a task without one. -/
structure Pinned (s : Rt) : Prop where
  workers : s.held.length = W
  blocked : ∀ τ ∈ s.held, Blocking s.net τ
  work : FrameWaits s.net ∨ s.net.mail.q.buf ≠ []
  runnable : ∃ τ n, τ ∉ s.held ∧ Step interfaces id srClient lpmTrie τ .own s.net n

/-- The number of configured interfaces. -/
def Interfaces.count : Nat := interfaces.map.keys.card

variable {interfaces id srClient lpmTrie W}

theorem mem_keys {k : U32} : k ∈ interfaces.map.keys ↔ (interfaces.get k).isSome := by
  rw [Finmap.mem_keys, Finmap.mem_iff, Option.isSome_iff_exists]
  rfl

theorem reach_net {s : Rt} (h : Rt.Reach interfaces id srClient lpmTrie W s) :
    Reach interfaces id srClient lpmTrie s.net := by
  refine h.map Rt.net ?_ ?_
  · intro s hs
    rw [hs]
  · intro s t _ hs
    cases hs with
    | schedule τ _ _ _ => exact Or.inr rfl
    | run τ c n _ hn => exact Or.inl ⟨τ, c, hn⟩
    | await τ _ _ => exact Or.inr rfl

/-! ## How many can block -/

theorem held_inv {s : Rt} (h : Rt.Reach interfaces id srClient lpmTrie W s) :
    s.held.Nodup ∧ ∀ τ ∈ s.held, Spawned interfaces τ := by
  refine h.inv (P := fun s => s.held.Nodup ∧ ∀ τ ∈ s.held, Spawned interfaces τ) ?_ ?_
  · intro s hs
    subst hs
    exact ⟨List.nodup_nil, fun τ hτ => by cases hτ⟩
  · intro s t _ ⟨hn, hsp⟩ hs
    cases hs with
    | schedule τ hτ hnot _ =>
      refine ⟨List.nodup_cons.mpr ⟨hnot, hn⟩, fun ρ hρ => ?_⟩
      rcases List.mem_cons.mp hρ with rfl | hρ
      · exact hτ
      · exact hsp ρ hρ
    | run τ c n _ _ => exact ⟨hn, hsp⟩
    | await τ _ _ => exact ⟨hn.erase τ, fun ρ hρ => hsp ρ (List.mem_of_mem_erase hρ)⟩

/-- The tasks with a blocking call in them. -/
def blockers (interfaces : Interfaces) : Finset Task := insert .prompt (interfaces.map.keys.image .reader)

theorem blockers_card : (blockers interfaces).card ≤ Interfaces.count interfaces + 1 := by
  unfold blockers Interfaces.count
  exact Nat.le_trans (Finset.card_insert_le _ _) (Nat.add_le_add_right Finset.card_image_le 1)

theorem held_le {s : Rt} (h : Rt.Reach interfaces id srClient lpmTrie W s) (hb : ∀ τ ∈ s.held, Blocking s.net τ) :
    s.held.length ≤ Interfaces.count interfaces + 1 := by
  obtain ⟨hn, hsp⟩ := held_inv h
  have hsub : s.held.toFinset ⊆ blockers interfaces := by
    intro τ hτ
    have hτ := List.mem_toFinset.mp hτ
    have hbl := hb τ hτ
    unfold blockers
    cases τ with
    | reader k => exact Finset.mem_insert_of_mem (Finset.mem_image_of_mem _ (mem_keys.mpr (hsp _ hτ)))
    | prompt => exact Finset.mem_insert_self _ _
    | _ => cases hbl
  rw [← List.toFinset_card_of_nodup hn]
  exact Nat.le_trans (Finset.card_le_card hsub) blockers_card

/-! ## No interface -/

theorem get_none (h0 : Interfaces.count interfaces = 0) (k : U32) : interfaces.get k = none := by
  cases hk : interfaces.get k with
  | none => rfl
  | some i =>
    have hm : k ∈ interfaces.map.keys := mem_keys.mpr (by rw [hk]; rfl)
    have := Finset.card_pos.mpr ⟨k, hm⟩
    unfold Interfaces.count at h0
    omega

/-- Without interfaces no frame is ever read. -/
theorem no_frames {s : Net} (h : Reach interfaces id srClient lpmTrie s) (h0 : Interfaces.count interfaces = 0) :
    ¬ FrameWaits s := by
  have hi := Pipe.inv (reach_pipe h)
  have hlink : ∀ k, s.pipe.ofLink k = [] := fun k => by rw [hi.conserved k, hi.configured k (get_none h0 k)]; rfl
  have hway : s.pipe.way = [] := by
    refine List.eq_nil_iff_forall_not_mem.mpr fun f hf => ?_
    have hm : f ∈ s.pipe.ofLink f.ifidx := List.mem_append_left _ (List.mem_filter.mpr ⟨hf, decide_eq_true rfl⟩)
    rw [hlink] at hm
    cases hm
  simp only [Pipe.way, List.append_eq_nil_iff] at hway
  obtain ⟨⟨⟨-, hq⟩, hr⟩, hrq⟩ := hway
  intro hw
  rcases hw with ⟨k, f, hf⟩ | hw | ⟨f, hf⟩ | hw
  · have hl := hlink k
    unfold Pipe.ofLink at hl
    rw [hf] at hl
    simp at hl
  · exact hw hrq
  · rw [hf] at hr
    cases hr
  · exact hw hq

/-- Without interfaces the receiver never has anything to ask. -/
theorem no_receiver {s : Net} (h : Reach interfaces id srClient lpmTrie s) (h0 : Interfaces.count interfaces = 0) :
    (s.mail.loc 0).handler = .idle ∧ ∀ r, Known s.mail.issued r → r.who ≠ 0 := by
  refine h.inv (P := fun s => (s.mail.loc 0).handler = .idle ∧ ∀ r, Known s.mail.issued r → r.who ≠ 0) ?_ ?_
  · intro s hs
    subst hs
    exact ⟨rfl, fun r hr => by cases hr⟩
  · intro s t hr ⟨hh, hk⟩ ⟨τ, c, hs⟩
    have hrm := reach_mail hr
    -- a client's step that is not the receiver's
    have hother : ∀ m, Mailbox.Step (server lpmTrie) (clients interfaces) (.client 1) s.mail m →
        (m.loc 0).handler = .idle ∧ ∀ r, Known m.issued r → r.who ≠ 0 := by
      intro m hm
      cases hm with
      | tau c l _ ht => cases ht.1
      | begin c call _ _ _ =>
        refine ⟨hh, fun r hr => ?_⟩
        rcases hr.cases with hr | rfl
        · exact hk r hr
        · exact Nat.one_ne_zero
      | push c r q' _ _ _ _ => exact ⟨hh, hk⟩
      | post c r q' _ hd _ _ => cases hd
      | ask c r q' _ _ _ => exact ⟨hh, hk⟩
      | recv c r v _ _ => exact ⟨by simpa only [Function.update_of_ne Nat.zero_ne_one] using hh, hk⟩
    cases hs with
    | take f p hp _ _ =>
      cases hp with
      | take f q' hq =>
        refine absurd (Or.inr (Or.inr (Or.inr ?_))) (no_frames hr h0)
        rw [Chan.recv_eq_some.mp hq]
        intro e
        cases e
    | handle m hne _ => exact absurd hh hne
    | state m hm =>
      cases hm with
      | serve r q' u v _ _ => exact ⟨hh, hk⟩
    | cliRelay m hm =>
      cases hm with
      | take r q' _ hq =>
        refine ⟨hh, fun x hx => ?_⟩
        rcases hx.cases with hx | rfl
        · exact hk x hx
        · exact hk r ((Mailbox.ids hrm).rq r ((Mailbox.mem_recv hq).mpr (Or.inl rfl)))
      | forward r r' q' _ _ => exact ⟨hh, hk⟩
      | answer r r' v _ _ => exact ⟨hh, hk⟩
    | line m _ hm => exact hother m hm
    | list m _ hm => exact hother m hm
    | _ => exact ⟨hh, hk⟩

/-- Without interfaces, and the prompt waiting for a line, the actor's mailbox is empty. -/
theorem no_commands {s : Net} (h : Reach interfaces id srClient lpmTrie s) (h0 : Interfaces.count interfaces = 0)
    (hpc : s.mail.pc 1 = .idle) : s.mail.q.buf = [] := by
  have hrm := reach_mail h
  refine List.eq_nil_iff_forall_not_mem.mpr fun r hr => ?_
  have hk := (Mailbox.ids hrm).q r hr
  have hne := (no_receiver h h0).2 r hk
  have hcalls := Mailbox.calls (program_calls interfaces (receiverKind fun c => c == 1) fun _ => False) hrm r hk
  by_cases h1 : r.who = 1
  · -- a list the prompt waits for, through the relay
    obtain ⟨r0, hr0⟩ := Mailbox.relay_q hrm r hr (by rw [h1]; rfl)
    have hwho := ((Mailbox.ids hrm).relay r0 r (Or.inr hr0)).2.2.1
    have hwait := ((Mailbox.hold hrm).inRelay r0 (Or.inr ⟨r, Or.inr hr0⟩)).1
    rw [← hwho, h1, hpc] at hwait
    cases hwait
  · unfold Calls receiverKind at hcalls
    simp [hne, h1] at hcalls

/-! ## A pinned state -/

/-- The tasks of `l` all get a worker before anything happens. -/
theorem schedule_all {l : List Task} (hn : l.Nodup) (hsp : ∀ τ ∈ l, Spawned interfaces τ) (hl : l.length ≤ W) :
    Rt.Reach interfaces id srClient lpmTrie W ⟨init interfaces lpmTrie, l⟩ := by
  induction l with
  | nil => exact .init rfl
  | cons τ l ih =>
    obtain ⟨hnot, hn⟩ := List.nodup_cons.mp hn
    rw [List.length_cons] at hl
    have hr := ih hn (fun ρ hρ => hsp ρ (List.mem_cons_of_mem _ hρ)) (by omega)
    exact hr.step (.schedule τ (hsp τ List.mem_cons_self) hnot (by show l.length < W; omega))

/-- The reader of `k`, then other readers and at last the prompt: `W` tasks if there are so many. -/
noncomputable def keepers (interfaces : Interfaces) (k : U32) (W : Nat) : List Task :=
  .reader k :: (((interfaces.map.keys.erase k).toList.map Task.reader ++ [Task.prompt]).take (W - 1))

theorem mem_keepers {k : U32} {τ : Task} (hk : (interfaces.get k).isSome) (h : τ ∈ keepers interfaces k W) :
    τ = .prompt ∨ ∃ j, τ = .reader j ∧ (interfaces.get j).isSome := by
  rcases List.mem_cons.mp h with rfl | h
  · exact Or.inr ⟨k, rfl, hk⟩
  · rcases List.mem_append.mp (List.mem_of_mem_take h) with h | h
    · obtain ⟨j, hj, rfl⟩ := List.mem_map.mp h
      exact Or.inr ⟨j, rfl, mem_keys.mp (Finset.mem_of_mem_erase (Finset.mem_toList.mp hj))⟩
    · exact Or.inl (List.mem_singleton.mp h)

theorem keepers_nodup {k : U32} : (keepers interfaces k W).Nodup := by
  have hinj : Function.Injective Task.reader := fun a b h => by injection h
  refine List.nodup_cons.mpr ⟨fun h => ?_, List.Nodup.sublist (List.take_sublist _ _) ?_⟩
  · rcases List.mem_append.mp (List.mem_of_mem_take h) with h | h
    · obtain ⟨j, hj, he⟩ := List.mem_map.mp h
      rw [hinj he] at hj
      exact Finset.notMem_erase _ _ (Finset.mem_toList.mp hj)
    · cases List.mem_singleton.mp h
  · rw [List.nodup_append]
    refine ⟨(Finset.nodup_toList _).map hinj, List.nodup_singleton _, fun τ hτ ρ hρ => ?_⟩
    obtain ⟨j, -, rfl⟩ := List.mem_map.mp hτ
    rw [List.mem_singleton.mp hρ]
    intro e
    cases e

theorem keepers_length {k : U32} (hk : (interfaces.get k).isSome) (hW : 1 ≤ W)
    (hle : W ≤ Interfaces.count interfaces + 1) :
    (keepers interfaces k W).length = W := by
  have hcard := Finset.card_erase_of_mem (mem_keys.mpr hk)
  have hpos := Finset.card_pos.mpr ⟨k, mem_keys.mpr hk⟩
  unfold Interfaces.count at hle
  simp only [keepers, List.length_cons, List.length_take, List.length_append, List.length_map, Finset.length_toList,
    List.length_nil]
  omega

/-- With an interface, and no more workers than tasks that can block, a reader reads and
    sends a frame and every worker is kept before the relay gets one. -/
theorem pinned_reachable {k : U32} (hk : (interfaces.get k).isSome) (hW : 1 ≤ W)
    (hle : W ≤ Interfaces.count interfaces + 1) :
    ∃ s, Rt.Reach interfaces id srClient lpmTrie W s ∧ Pinned interfaces id srClient lpmTrie W s := by
  obtain ⟨i, hi⟩ := Option.isSome_iff_exists.mp hk
  have hlen := keepers_length hk hW hle
  have hsp : ∀ τ ∈ keepers interfaces k W, Spawned interfaces τ := by
    intro τ hτ
    rcases mem_keepers hk hτ with rfl | ⟨j, rfl, hj⟩
    · trivial
    · exact hj
  have h0 : Rt.Reach interfaces id srClient lpmTrie W ⟨init interfaces lpmTrie, keepers interfaces k W⟩ :=
    schedule_all keepers_nodup hsp (Nat.le_of_eq hlen)
  have hmem : Task.reader k ∈ keepers interfaces k W := List.mem_cons_self
  have h1 := h0.step (.run (.reader k) .event _ hmem (.read k _ (.read k i [] hi rfl)))
  have hroom : [(⟨i.ifidx, []⟩ : Frame)].length ≤ chanCap := by show 1 ≤ 100; omega
  have h2 := h1.step (.run (.reader k) .own _ hmem (.push k _ (.push k ⟨i.ifidx, []⟩ ⟨[⟨i.ifidx, []⟩], hroom⟩
    (Function.update_self _ _ _) (Chan.send_eq_some.mpr rfl))))
  refine ⟨_, h2, hlen, fun τ hτ => ?_, Or.inl (Or.inr (Or.inl (by intro e; cases e))), ?_⟩
  · rcases mem_keepers hk hτ with rfl | ⟨j, rfl, -⟩
    · exact rfl
    · show update (update (fun _ => none) k _) k none j = none
      rw [Function.update_idem]
      by_cases e : j = k
      · rw [e, Function.update_self]
      · rw [Function.update_of_ne e]
  · refine ⟨.relay, _, fun h => ?_, .relay _ (.relayTake ⟨i.ifidx, []⟩ .empty rfl (Chan.recv_eq_some.mpr rfl))⟩
    rcases mem_keepers hk h with h | ⟨j, h, -⟩ <;> cases h

/-- Whatever the schedule, no state is pinned exactly if there is no interface, or there are
    two workers more than interfaces. -/
theorem pinned_iff (hW : 1 ≤ W) :
    (∀ s, Rt.Reach interfaces id srClient lpmTrie W s → ¬ Pinned interfaces id srClient lpmTrie W s) ↔
      Interfaces.count interfaces = 0 ∨ Interfaces.count interfaces + 2 ≤ W := by
  constructor
  · intro h
    by_cases h0 : Interfaces.count interfaces = 0
    · exact Or.inl h0
    · right
      by_cases hle : W ≤ Interfaces.count interfaces + 1
      · obtain ⟨k, hk⟩ := Finset.card_pos.mp (Nat.pos_of_ne_zero h0)
        have hex : ∃ s, Rt.Reach interfaces id srClient lpmTrie W s ∧ Pinned interfaces id srClient lpmTrie W s :=
          pinned_reachable (mem_keys.mp hk) hW hle
        obtain ⟨s, hs, hp⟩ := hex
        exact absurd hp (h s hs)
      · omega
  · intro h s hs hp
    have hle := held_le hs hp.blocked
    have hlen := hp.workers
    rcases h with h0 | h2
    · -- the prompt keeps the only worker
      obtain ⟨τ, hτ⟩ := List.exists_mem_of_length_pos (show 0 < s.held.length by omega)
      have hb := hp.blocked τ hτ
      have hpc : s.net.mail.pc 1 = .idle := by
        cases τ with
        | reader k =>
          have hsp : (interfaces.get k).isSome := (held_inv hs).2 _ hτ
          rw [get_none h0 k] at hsp
          cases hsp
        | prompt => exact hb
        | _ => cases hb
      rcases hp.work with hw | hw
      · exact no_frames (reach_net hs) h0 hw
      · exact hw (no_commands (reach_net hs) h0 hpc)
    · omega

/-- One interface and three workers: at most its reader and the prompt keep one each. -/
theorem pinned_iff_three : ¬ ∃ s, Rt.Reach oneLink 7 ⟨none⟩ noRoutes 3 s ∧ Pinned oneLink 7 ⟨none⟩ noRoutes 3 s := by
  intro ⟨s, hs, hp⟩
  exact (pinned_iff (by decide)).mpr (Or.inr (by decide)) s hs hp

/-- One interface and one worker: the reader reads and sends a frame, and waits for the
    next one on the only worker. -/
theorem one_worker_pinned : ∃ s, Rt.Reach oneLink 7 ⟨none⟩ noRoutes 1 s ∧ Pinned oneLink 7 ⟨none⟩ noRoutes 1 s :=
  pinned_reachable (k := 1) (by rw [oneLink_eth1]; rfl) (by decide) (by decide)

end FabricRs.Network

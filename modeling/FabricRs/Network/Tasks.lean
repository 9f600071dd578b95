/-
  FabricRs.Network.Tasks — the tasks `UserSpace::run` starts, over their channels.

  A reader for each interface, the relay and the receiver on the way of the frames
  (`FabricRs.SendReceive.Pipeline`); the receiver's calls, the CLI prompt's through its
  relay, and the State actor (`FabricRs.UserSpace.Atomicity`, whose task 0 is the receiver
  and task 1 the prompt); the disco sender and the frame sender with the channel between
  them. `srClient` is the client the disco sender holds: with a channel or without one.

  A step is a task's own, or an event: a frame arrives on a link, the timer ticks, the user
  enters a line. A line that is no list command changes nothing, and `Exit` ends the
  process.

  - `no_deadlock`: while a task waits for a slot or an answer, or a channel holds
    something, some task has a step of its own. A full channel's taker is not waiting for
    those that fill it: frames wait for the receiver, the receiver and the prompt for the
    relay and the actor, and the actor for no one.
-/

import FabricRs.SendReceive.Pipeline
import FabricRs.UserSpace.Receiver

namespace FabricRs.Network

open State UserSpace SendReceive
open Lts (Chan)
open Mailbox (Agent)
open Function (update)

structure Net where
  pipe : Pipe
  mail : Sys
  /-- What the disco sender has yet to send before it waits for the next tick. -/
  hellos : List Frame
  /-- From the disco sender to the frame sender. -/
  sendq : Chan chanCap Frame

inductive Task where
  | reader (k : U32)
  | relay
  | receiver
  | discoSender
  | frameSender
  | state
  | cliRelay
  | prompt
  deriving DecidableEq

/-- What makes a task move: itself, or something outside the program. -/
inductive Cause where
  | own
  | event

variable (interfaces : Interfaces) (id : U32) (srClient : SendReceive.Client) (lpmTrie : LpmTrie)

/-- The State actor's clients: the receiver and the prompt. -/
def clients : Mailbox.Prog StateCommand Reply TaskState :=
  program interfaces (receiverKind fun c => c == 1) fun _ => False

def init : Net := ⟨.init, Mailbox.init (server lpmTrie) (clients interfaces), [], .empty⟩

inductive Step : Task → Cause → Net → Net → Prop
  | read {s} (k : U32) (p : Pipe) : Pipe.Step interfaces (.read k) s.pipe p → Step (.reader k) .event s { s with pipe := p }
  | push {s} (k : U32) (p : Pipe) : Pipe.Step interfaces (.push k) s.pipe p → Step (.reader k) .own s { s with pipe := p }
  | relay {s} (p : Pipe) : Pipe.Step interfaces .relay s.pipe p → Step .relay .own s { s with pipe := p }
  /-- The receiver, done with a frame, takes the next one. -/
  | take {s} (f : Frame) (p : Pipe) : Pipe.Step interfaces (.take f) s.pipe p → s.mail.pc 0 = .idle →
      (s.mail.loc 0).handler = .idle →
      Step .receiver .own s { s with
        pipe := p
        mail := { s.mail with loc := update s.mail.loc 0 ⟨(s.mail.loc 0).seen ++ [f], .start (hello interfaces f)⟩ } }
  | handle {s} (m : Sys) : (s.mail.loc 0).handler ≠ .idle →
      Mailbox.Step (server lpmTrie) (clients interfaces) (.client 0) s.mail m → Step .receiver .own s { s with mail := m }
  | state {s} (m : Sys) : Mailbox.Step (server lpmTrie) (clients interfaces) .server s.mail m →
      Step .state .own s { s with mail := m }
  | cliRelay {s} (m : Sys) : Mailbox.Step (server lpmTrie) (clients interfaces) .relay s.mail m →
      Step .cliRelay .own s { s with mail := m }
  /-- `prompt()` returns a list command. -/
  | line {s} (m : Sys) : s.mail.pc 1 = .idle →
      Mailbox.Step (server lpmTrie) (clients interfaces) (.client 1) s.mail m → Step .prompt .event s { s with mail := m }
  | list {s} (m : Sys) : s.mail.pc 1 ≠ .idle →
      Mailbox.Step (server lpmTrie) (clients interfaces) (.client 1) s.mail m → Step .prompt .own s { s with mail := m }
  | tick {s} (l : List (U32 × Interface)) : s.hellos = [] → interfaces.map.Lists l →
      Step .discoSender .event s { s with hellos := l.filterMap fun e => discoHello id e.2 }
  /-- `send` without a channel. -/
  | drop {s} (f : Frame) (rest : List Frame) : s.hellos = f :: rest → srClient.senderChannel = none →
      Step .discoSender .own s { s with hellos := rest }
  | hello {s} (f : Frame) (rest : List Frame) (q' : Chan chanCap Frame) : s.hellos = f :: rest →
      srClient.senderChannel = some .mk → s.sendq.send f = some q' →
      Step .discoSender .own s { s with hellos := rest, sendq := q' }
  | send {s} (f : Frame) (q' : Chan chanCap Frame) : s.sendq.recv = some (f, q') →
      Step .frameSender .own s { s with sendq := q' }

abbrev Reach (s : Net) : Prop :=
  Lts.Reach (· = init interfaces lpmTrie) (fun s t => ∃ τ c, Step interfaces id srClient lpmTrie τ c s t) s

/-- A task waits for a free slot of a channel or for an answer. -/
def Waits (s : Net) : Prop :=
  (∃ k f, s.pipe.hand k = some f) ∨ (∃ f, s.pipe.relay = some f) ∨ s.mail.pc 0 ≠ .idle ∨ s.mail.pc 1 ≠ .idle ∨
    s.mail.relay ≠ .idle ∨ s.hellos ≠ []

/-- A channel is not empty. -/
def Holds (s : Net) : Prop :=
  s.pipe.rq.buf ≠ [] ∨ s.pipe.q.buf ≠ [] ∨ s.mail.q.buf ≠ [] ∨ s.mail.rq.buf ≠ [] ∨ s.sendq.buf ≠ []

/-- Some task has a step of its own. -/
def Moves (s : Net) : Prop := ∃ τ t, Step interfaces id srClient lpmTrie τ .own s t

/-! ## The parts of a run -/

variable {interfaces id srClient lpmTrie}

/-- The frames' part of a run of the network is a run of the pipeline. -/
theorem reach_pipe {s : Net} (h : Reach interfaces id srClient lpmTrie s) : Pipe.Reach interfaces s.pipe := by
  refine h.map Net.pipe ?_ ?_
  · intro s hs
    rw [hs]
    rfl
  · intro s t _ ⟨τ, c, hs⟩
    cases hs with
    | read k p hp => exact Or.inl ⟨_, hp⟩
    | push k p hp => exact Or.inl ⟨_, hp⟩
    | relay p hp => exact Or.inl ⟨_, hp⟩
    | take f p hp _ _ => exact Or.inl ⟨_, hp⟩
    | _ => exact Or.inr rfl

/-- The commands' part of it is a run of the actor and its clients. -/
theorem reach_mail {s : Net} (h : Reach interfaces id srClient lpmTrie s) :
    Mailbox.Reach (server lpmTrie) (clients interfaces) s.mail := by
  refine h.map Net.mail ?_ ?_
  · intro s hs
    rw [hs]
    rfl
  · intro s t _ ⟨τ, c, hs⟩
    cases hs with
    | take f p _ hpc hh => exact Or.inl ⟨_, .tau 0 _ hpc ⟨rfl, hh, f, rfl⟩⟩
    | handle m _ hm => exact Or.inl ⟨_, hm⟩
    | state m hm => exact Or.inl ⟨_, hm⟩
    | cliRelay m hm => exact Or.inl ⟨_, hm⟩
    | line m _ hm => exact Or.inl ⟨_, hm⟩
    | list m _ hm => exact Or.inl ⟨_, hm⟩
    | _ => exact Or.inr rfl

/-! ## Who can move -/

section Moves

variable {s : Net}

theorem server_moves (h : ∃ m, Mailbox.Step (server lpmTrie) (clients interfaces) .server s.mail m) :
    Moves interfaces id srClient lpmTrie s := by
  obtain ⟨m, hm⟩ := h
  exact ⟨_, _, .state m hm⟩

theorem relay_moves (h : ∃ m, Mailbox.Step (server lpmTrie) (clients interfaces) .relay s.mail m) :
    Moves interfaces id srClient lpmTrie s := by
  obtain ⟨m, hm⟩ := h
  exact ⟨_, _, .cliRelay m hm⟩

/-- The receiver in a call is between its get and its add. -/
theorem handler_busy (hr : Reach interfaces id srClient lpmTrie s) (h : s.mail.pc 0 ≠ .idle) :
    (s.mail.loc 0).handler ≠ .idle := by
  obtain ⟨acts, -, hat⟩ := inv (reach_mail hr)
  cases hat 0 rfl with
  | idle _ hp _ => exact absurd hp h
  | get fs f id ni _ _ _ hh _ _ => rw [hh]; intro e; cases e
  | add fs f id ni o _ _ _ hh _ _ => rw [hh]; intro e; cases e

/-- A receiver that is not done with its frame is not stuck. -/
theorem receiver_moves (hr : Reach interfaces id srClient lpmTrie s)
    (h : s.mail.pc 0 ≠ .idle ∨ (s.mail.loc 0).handler ≠ .idle) : Moves interfaces id srClient lpmTrie s := by
  by_cases hpc : s.mail.pc 0 = .idle
  · -- it begins its next call
    have hh : (s.mail.loc 0).handler ≠ .idle := h.resolve_left fun hn => hn hpc
    obtain ⟨acts, -, hat⟩ := inv (reach_mail hr)
    have hbegin : ∀ cmd, (s.mail.loc 0).handler.call = some cmd → Moves interfaces id srClient lpmTrie s := fun cmd hc =>
      ⟨_, _, .handle _ hh (.begin 0 cmd hpc hc fun hd => by cases hd)⟩
    cases hat 0 rfl with
    | idle hi _ _ => exact absurd hi hh
    | get fs f id ni _ _ _ hg _ _ => exact hbegin _ (by rw [hg]; rfl)
    | add fs f id ni o _ _ _ ha _ _ => exact hbegin _ (by rw [ha]; rfl)
  · rcases Mailbox.client_progress (reach_mail hr) (by decide) (by decide) hpc with ⟨m, hm⟩ | hm | hm
    · exact ⟨_, _, .handle m (handler_busy hr hpc) hm⟩
    · exact relay_moves hm
    · exact server_moves hm

theorem prompt_moves (hr : Reach interfaces id srClient lpmTrie s) (h : s.mail.pc 1 ≠ .idle) :
    Moves interfaces id srClient lpmTrie s := by
  rcases Mailbox.client_progress (reach_mail hr) (by decide) (by decide) h with ⟨m, hm⟩ | hm | hm
  · exact ⟨_, _, .list m h hm⟩
  · exact relay_moves hm
  · exact server_moves hm

theorem q_moves (hr : Reach interfaces id srClient lpmTrie s) (h : s.pipe.q.buf ≠ []) :
    Moves interfaces id srClient lpmTrie s := by
  by_cases hb : s.mail.pc 0 = .idle ∧ (s.mail.loc 0).handler = .idle
  · obtain ⟨f, q', hq⟩ := s.pipe.q.exists_recv h
    exact ⟨_, _, .take f _ (.take f q' hq) hb.1 hb.2⟩
  · by_cases hpc : s.mail.pc 0 = .idle
    · exact receiver_moves hr (Or.inr fun hh => hb ⟨hpc, hh⟩)
    · exact receiver_moves hr (Or.inl hpc)

theorem pipe_relay_moves (hr : Reach interfaces id srClient lpmTrie s) {f : Frame} (h : s.pipe.relay = some f) :
    Moves interfaces id srClient lpmTrie s := by
  rcases s.pipe.q.room_or_ne_nil (by decide) with hroom | hne
  · obtain ⟨q', hq⟩ := s.pipe.q.exists_send f hroom
    exact ⟨_, _, .relay _ (.relayPush f q' h hq)⟩
  · exact q_moves hr hne

theorem rq_moves (hr : Reach interfaces id srClient lpmTrie s) (h : s.pipe.rq.buf ≠ []) :
    Moves interfaces id srClient lpmTrie s := by
  cases hrel : s.pipe.relay with
  | none =>
    obtain ⟨f, q', hq⟩ := s.pipe.rq.exists_recv h
    exact ⟨_, _, .relay _ (.relayTake f q' hrel hq)⟩
  | some f => exact pipe_relay_moves hr hrel

theorem reader_moves (hr : Reach interfaces id srClient lpmTrie s) {k : U32} {f : Frame} (h : s.pipe.hand k = some f) :
    Moves interfaces id srClient lpmTrie s := by
  rcases s.pipe.rq.room_or_ne_nil (by decide) with hroom | hne
  · obtain ⟨q', hq⟩ := s.pipe.rq.exists_send f hroom
    exact ⟨_, _, .push k _ (.push k f q' h hq)⟩
  · exact rq_moves hr hne

theorem sendq_moves (h : s.sendq.buf ≠ []) : Moves interfaces id srClient lpmTrie s := by
  obtain ⟨f, q', hq⟩ := s.sendq.exists_recv h
  exact ⟨_, _, .send f q' hq⟩

theorem disco_sender_moves (h : s.hellos ≠ []) : Moves interfaces id srClient lpmTrie s := by
  obtain ⟨f, rest, hf⟩ := List.exists_cons_of_ne_nil h
  cases hc : srClient.senderChannel with
  | none => exact ⟨_, _, .drop f rest hf hc⟩
  | some x =>
    rcases s.sendq.room_or_ne_nil (by decide) with hroom | hne
    · obtain ⟨q', hq⟩ := s.sendq.exists_send f hroom
      exact ⟨_, _, .hello f rest q' hf hc hq⟩
    · exact sendq_moves hne

end Moves

/-! ## A frame's way -/

section way

variable {s : Net} {k : U32} {i : Interface}

/-- A reader with empty hands takes a frame off its link and sends it. -/
theorem read_sent (h : Reach interfaces id srClient lpmTrie s) (hk : interfaces.get k = some i) (hh : s.pipe.hand k = none)
    (buf : Wire.Bytes) {rq' : Chan chanCap Frame} (hs : s.pipe.rq.send ⟨k, buf⟩ = some rq') :
    Reach interfaces id srClient lpmTrie { s with
      pipe := { s.pipe with links := update s.pipe.links k (s.pipe.links k ++ [buf]), rq := rq' } } := by
  have h1 := h.step ⟨_, _, .read k _ (.read k i buf hk hh)⟩
  have h2 := h1.step ⟨_, _, .push k _ (.push k ⟨i.ifidx, buf⟩ rq' (Function.update_self _ _ _)
    (by rw [interfaces.keyed k i hk]; exact hs))⟩
  have hhand : update (update s.pipe.hand k (some ⟨i.ifidx, buf⟩)) k none = s.pipe.hand := by
    rw [Function.update_idem, ← hh, Function.update_eq_self]
  simp only [hhand] at h2
  exact h2

/-- The relay with empty hands takes a frame and sends it on. -/
theorem relayed (h : Reach interfaces id srClient lpmTrie s) (hr : s.pipe.relay = none) {f : Frame}
    {rq' q' : Chan chanCap Frame} (hq : s.pipe.rq.recv = some (f, rq')) (hs : s.pipe.q.send f = some q') :
    Reach interfaces id srClient lpmTrie { s with pipe := { s.pipe with rq := rq', q := q' } } := by
  have h1 := h.step ⟨_, _, .relay _ (.relayTake f rq' hr hq)⟩
  have h2 := h1.step ⟨_, _, .relay _ (.relayPush f q' rfl hs)⟩
  simp only [← hr] at h2
  exact h2

/-- A reader can fill the channel while no one takes from it. -/
theorem filled (h : Reach interfaces id srClient lpmTrie s) (hk : interfaces.get k = some i) (hh : s.pipe.hand k = none)
    {n : Nat} (hn : s.pipe.rq.buf.length + n ≤ chanCap) : ∃ t, Reach interfaces id srClient lpmTrie t ∧ t.mail = s.mail ∧
      t.pipe.hand k = none ∧ t.pipe.rq.buf.length = s.pipe.rq.buf.length + n := by
  induction n with
  | zero => exact ⟨s, h, rfl, hh, rfl⟩
  | succ n ih =>
    obtain ⟨t, ht, hm, hh', hlen⟩ := ih (by omega)
    obtain ⟨rq', hs⟩ := t.pipe.rq.exists_send ⟨k, []⟩ (by omega)
    refine ⟨_, read_sent ht hk hh' [] hs, hm, hh', ?_⟩
    rw [Chan.send_eq_some.mp hs, List.length_append, hlen]
    rfl

variable (interfaces id srClient lpmTrie) in
/-- What the receiver does with a frame it has taken, and the actor, leaves the rest alone. -/
theorem mail_keeps (p : Pipe) (hs : List Frame) (q : Chan chanCap Frame) :
    Keeps interfaces (receiverKind fun c => c == 1) (fun _ => False) lpmTrie
      (fun m => Reach interfaces id srClient lpmTrie ⟨p, m, hs, q⟩) 0 := by
  intro a x y hx ha hstep
  rcases ha with rfl | ⟨rfl, hh⟩
  · exact hx.step ⟨_, _, .state y hstep⟩
  · exact hx.step ⟨_, _, .handle y hh hstep⟩

/-- No task has anything in its hand, and the channels are empty. -/
structure Quiet (s : Net) : Prop where
  hand : ∀ k, s.pipe.hand k = none
  rq : s.pipe.rq.buf = []
  relay : s.pipe.relay = none
  q : s.pipe.q.buf = []
  pc : ∀ c, s.mail.pc c = .idle
  handler : (s.mail.loc 0).handler = .idle
  state : s.mail.q.buf = []
  cli : s.mail.rq.buf = []
  cliRelay : s.mail.relay = .idle
  hellos : s.hellos = []
  sendq : s.sendq.buf = []

theorem init_quiet : Quiet (init interfaces lpmTrie) :=
  ⟨fun _ => rfl, rfl, rfl, rfl, fun _ => rfl, rfl, rfl, rfl, rfl, rfl, rfl⟩

/-- Any frame can go from its link to the receiver. -/
theorem received (h : Reach interfaces id srClient lpmTrie s) (hq : Quiet s) (hk : interfaces.get k = some i)
    (buf : Wire.Bytes) : Reach interfaces id srClient lpmTrie { s with
      pipe := { s.pipe with links := update s.pipe.links k (s.pipe.links k ++ [buf]), taken := s.pipe.taken ++ [⟨k, buf⟩] }
      mail := { s.mail with
        loc := update s.mail.loc 0 ⟨(s.mail.loc 0).seen ++ [⟨k, buf⟩], .start (hello interfaces ⟨k, buf⟩)⟩ } } := by
  obtain ⟨rq', hrq⟩ := s.pipe.rq.exists_send ⟨k, buf⟩ (by rw [hq.rq]; decide)
  obtain ⟨q', hqs⟩ := s.pipe.q.exists_send ⟨k, buf⟩ (by rw [hq.q]; decide)
  have hrqr : rq'.recv = some (⟨k, buf⟩, s.pipe.rq) := by rw [Chan.recv_eq_some, Chan.send_eq_some.mp hrq, hq.rq]; rfl
  have hqr : q'.recv = some (⟨k, buf⟩, s.pipe.q) := by rw [Chan.recv_eq_some, Chan.send_eq_some.mp hqs, hq.q]; rfl
  have h1 := read_sent h hk (hq.hand k) buf hrq
  have h2 := relayed h1 hq.relay hrqr hqs
  exact h2.step ⟨_, _, .take _ _ (.take _ _ hqr) (hq.pc 0) hq.handler⟩

/-- And through it and the actor, and leave them all as quiet as they were. -/
theorem carried (h : Reach interfaces id srClient lpmTrie s) (hq : Quiet s) (hk : interfaces.get k = some i)
    (buf : Wire.Bytes) : ∃ t, Reach interfaces id srClient lpmTrie t ∧ Quiet t ∧
      t.pipe.links = update s.pipe.links k (s.pipe.links k ++ [buf]) ∧
      t.mail.srv.nt = receive interfaces s.mail.srv.nt ⟨k, buf⟩ := by
  have hstart : (update s.mail.loc 0 ⟨(s.mail.loc 0).seen ++ [⟨k, buf⟩], .start (hello interfaces ⟨k, buf⟩)⟩ 0).handler =
      .start (hello interfaces ⟨k, buf⟩) := by rw [Function.update_self]
  obtain ⟨m, hm, hend⟩ := handle_turn (mail_keeps interfaces id srClient lpmTrie _ _ _) (received h hq hk buf) rfl hq.state
    (hq.pc 0) hstart
  refine ⟨_, hm, ⟨hq.hand, hq.rq, hq.relay, hq.q, fun c => ?_, ?_, hend.q, ?_, ?_, hq.hellos, hq.sendq⟩, rfl, hend.nt⟩
  · rw [hend.pc]
    exact hq.pc c
  · rw [hend.loc, Function.update_self]
  · rw [hend.rq]
    exact hq.cli
  · rw [hend.relay]
    exact hq.cliRelay

end way

/-! ## No deadlock -/

/-- The network does not deadlock: in every reachable state where a task waits for a slot
    or an answer, or a channel is not empty, some task has a step that is no event. -/
theorem no_deadlock {s : Net} (hr : Reach interfaces id srClient lpmTrie s) (h : Waits s ∨ Holds s) :
    ∃ τ t, Step interfaces id srClient lpmTrie τ .own s t := by
  rcases h with h | h
  · rcases h with ⟨k, f, hf⟩ | ⟨f, hf⟩ | hpc | hpc | hrel | hh
    · exact reader_moves hr hf
    · exact pipe_relay_moves hr hf
    · exact receiver_moves hr (Or.inl hpc)
    · exact prompt_moves hr hpc
    · rcases Mailbox.relay_progress (reach_mail hr) (by decide) hrel with hm | hm
      · exact relay_moves hm
      · exact server_moves hm
    · exact disco_sender_moves hh
  · rcases h with hq | hq | hq | hq | hq
    · exact rq_moves hr hq
    · exact q_moves hr hq
    · exact server_moves (Mailbox.exists_serve hq)
    · rcases Mailbox.rq_progress (reach_mail hr) (by decide) hq with hm | hm
      · exact relay_moves hm
      · exact server_moves hm
    · exact sendq_moves hq

/-- The receiver waits for the actor, behind it the readers' channel is full, and a reader
    has one frame more. -/
theorem no_deadlock_full : ∃ s : Net, (∃ r, s.mail.pc 0 = .waiting r) ∧ s.mail.q.buf ≠ [] ∧
    s.pipe.rq.buf.length = chanCap ∧ s.pipe.hand 1 = some ⟨1, []⟩ ∧ ∃ τ t, Step oneLink 7 ⟨none⟩ noRoutes τ .own s t := by
  let r : Mailbox.Req StateCommand := ⟨0, 0, .get (.neighbor 7), 0⟩
  have h0 : Reach oneLink 7 ⟨none⟩ noRoutes (init oneLink noRoutes) := .init rfl
  have h1 := received h0 init_quiet oneLink_eth1 (helloFrame 1 7 0x0a00000b mac1).msg
  rw [show hello oneLink ⟨1, (helloFrame 1 7 0x0a00000b mac1).msg⟩ = _ from hello_heard 7 mac1] at h1
  have hbusy : Handler.get 7 (heard mac1) ≠ .idle := nofun
  have h2 := h1.step ⟨_, _, .handle _ hbusy (.begin 0 r.call rfl rfl fun h => by cases h)⟩
  have h3 := h2.step ⟨_, _, .handle _ hbusy (.push 0 r ⟨[r], by decide⟩ rfl rfl rfl (Chan.send_eq_some.mpr rfl))⟩
  obtain ⟨t, h4, hmail, hhand, hlen⟩ := filled h3 oneLink_eth1 rfl (n := chanCap) (by decide)
  have h5 := h4.step ⟨_, _, .read 1 _ (.read 1 eth1 [] oneLink_eth1 hhand)⟩
  refine ⟨_, ⟨r, by rw [hmail]; rfl⟩, by rw [hmail]; nofun, by rw [hlen]; rfl, rfl, no_deadlock h5 (Or.inl (Or.inl ⟨1, _, rfl⟩))⟩

end FabricRs.Network

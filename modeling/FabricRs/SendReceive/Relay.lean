/-
  FabricRs.SendReceive.Relay — the end of the readers and the relay's loops
  (`SendReceive::run`, `send_recv`, `recv`).

  `run` makes the relay's channel and gives its one sender to `send_recv`, which clones it
  for each reader and drops the original when it returns; only then does `recv` spawn the
  relay. A reader's task ends in the `unwrap` of a link that fails, its clone with it. With
  every sender gone and nothing queued, `rx.recv()` returns `None` at once: the relay's
  `while let` ends, and the `loop` around it starts the next. `polls` only counts these.
  A set-up that panics (an interface that is missing) starts no relay.

  - `relay_never_ends`: once the senders are gone, every run drains the channel, and from
    then on is the relay polling it.
  - `no_interface_never_ends`: so it does from the start where there is no interface.
-/

import Mathlib.Logic.Relation
import FabricRs.SendReceive.Pipeline

namespace FabricRs.SendReceive

open Lts (Chan Run update_cases)
open Function (update)
open Wire (Bytes)

structure Relay where
  pipe : Pipe
  /-- The interfaces `send_recv` has yet to start a reader for. -/
  todo : List U32
  /-- `send_recv` has the sender it was given. -/
  held : Bool
  /-- The reader runs, with its clone of the sender. -/
  readers : U32 → Bool
  /-- `recv` has spawned the relay. -/
  spawned : Bool
  /-- `UserSpace::receiver` has its end of the relay's target. -/
  receiving : Bool
  polls : Nat

namespace Relay

/-- Who moves. -/
inductive Act where
  | sendRecv
  | recv
  | reader (k : U32)
  | relay
  | receiver

/-- The relay's channel has no sender left. -/
structure Closed (s : Relay) : Prop where
  original : s.held = false
  clones : ∀ k, s.readers k = false

/-- The relay is at `rx.recv()` and nothing is queued. -/
structure Drained (s : Relay) : Prop where
  spawned : s.spawned = true
  sent : s.pipe.relay = none
  empty : s.pipe.rq.buf = []

/-- `rx.recv()` has returned `None`. -/
def poll (s : Relay) : Relay := { s with polls := s.polls + 1 }

variable (interfaces : Interfaces)

inductive Step : Act → Relay → Relay → Prop
  | spawn {s} (k : U32) (todo : List U32) : s.held = true → s.todo = k :: todo →
      Step .sendRecv s { s with todo := todo, readers := update s.readers k true }
  | drop {s} : s.held = true → s.todo = [] → Step .sendRecv s { s with held := false }
  | recv {s} : s.held = false → s.spawned = false → Step .recv s { s with spawned := true }
  | read {s} (k : U32) (p : Pipe) : s.readers k = true → Pipe.Step interfaces (.read k) s.pipe p →
      Step (.reader k) s { s with pipe := p }
  | push {s} (k : U32) (p : Pipe) : s.readers k = true → Pipe.Step interfaces (.push k) s.pipe p →
      Step (.reader k) s { s with pipe := p }
  /-- `dl_rx.next()` fails. -/
  | stop {s} (k : U32) : s.readers k = true → s.pipe.hand k = none →
      Step (.reader k) s { s with readers := update s.readers k false }
  | relay {s} (p : Pipe) : s.spawned = true → (s.pipe.relay = none ∨ s.receiving = true) →
      Pipe.Step interfaces .relay s.pipe p → Step .relay s { s with pipe := p }
  /-- The receiver is gone: the frame is lost, the error logged. -/
  | fail {s} (f : Frame) : s.spawned = true → s.pipe.relay = some f → s.receiving = false →
      Step .relay s { s with pipe := { s.pipe with relay := none } }
  | poll {s} : s.Drained → s.Closed → Step .relay s s.poll
  | receive {s} (f : Frame) (p : Pipe) : s.receiving = true → Pipe.Step interfaces (.take f) s.pipe p →
      Step .receiver s { s with pipe := p }
  /-- The receiver's task is gone, its channel with it. -/
  | leave {s} : s.receiving = true →
      Step .receiver s { s with receiving := false, pipe := { s.pipe with q := .empty } }

/-- `SendReceive::run`, with its interfaces listed in any order. -/
def Init (s : Relay) : Prop :=
  ∃ l, interfaces.map.Lists l ∧ s = ⟨.init, l.map (·.1), true, fun _ => false, false, true, 0⟩

abbrev Reach (s : Relay) : Prop := Lts.Reach (Init interfaces) (fun s t => ∃ a, Step interfaces a s t) s

abbrev Steps (s t : Relay) : Prop := Relation.ReflTransGen (fun s t => ∃ a, Step interfaces a s t) s t

/-- In every run the relay drains its channel and then moves no more. -/
def Ends (s : Relay) : Prop :=
  ∀ r : Run (Step interfaces) s, ∃ n, (r.state n).Drained ∧ ∀ m, n ≤ m → r.act m ≠ .relay

/-- The receiver took every frame that was read, or has it queued. -/
def Relayed (p : Pipe) : Prop := ∀ k, (p.taken ++ p.q.buf).filter (·.ifidx = k) = (p.links k).map (⟨k, ·⟩)

structure Inv (s : Relay) : Prop where
  /-- A reader that holds a frame runs. -/
  hand : ∀ k f, s.pipe.hand k = some f → s.readers k = true
  /-- No frame is lost while the receiver is there. -/
  pipe : s.receiving = true → Pipe.Reach interfaces s.pipe

variable {interfaces}

theorem Closed.hand {s : Relay} (hc : s.Closed) (hi : Inv interfaces s) (k : U32) : s.pipe.hand k = none := by
  cases hh : s.pipe.hand k with
  | none => rfl
  | some f => have h := hi.hand k f hh; rw [hc.clones] at h; cases h

/-- Only a reader changes what readers hold. -/
theorem hand_of_step {a : Pipe.Act} {p p' : Pipe} (h : Pipe.Step interfaces a p p') {k : U32} {f : Frame}
    (hk : p'.hand k = some f) : p.hand k = some f ∨ a = .read k := by
  cases h with
  | read j interface buf hj hh =>
    rcases update_cases hk with ⟨rfl, -⟩ | ⟨-, h⟩
    · exact Or.inr rfl
    · exact Or.inl h
  | push j g rq' hh hs =>
    rcases update_cases hk with ⟨-, h⟩ | ⟨-, h⟩
    · cases h
    · exact Or.inl h
  | relayTake g rq' hr hq => exact Or.inl hk
  | relayPush g q' hr hs => exact Or.inl hk
  | take g q' hq => exact Or.inl hk

/-- A step of the pipe by a task that is there. -/
theorem Inv.moved {a : Pipe.Act} {s : Relay} {p : Pipe} (hi : Inv interfaces s) (h : Pipe.Step interfaces a s.pipe p)
    (ha : ∀ k, a = .read k → s.readers k = true) : Inv interfaces { s with pipe := p } := by
  refine ⟨fun k f hk => ?_, fun hr => (hi.pipe hr).step ⟨a, h⟩⟩
  rcases hand_of_step h hk with hk | e
  · exact hi.hand k f hk
  · exact ha k e

theorem step_inv {a : Act} {s t : Relay} (hi : Inv interfaces s) (h : Step interfaces a s t) : Inv interfaces t := by
  cases h with
  | spawn k todo hh ht =>
    refine ⟨fun j f hj => ?_, hi.pipe⟩
    by_cases e : j = k
    · subst e; exact Function.update_self ..
    · exact (Function.update_of_ne e ..).trans (hi.hand j f hj)
  | drop hh ht => exact ⟨hi.hand, hi.pipe⟩
  | recv hh hs => exact ⟨hi.hand, hi.pipe⟩
  | read k p hk h => exact hi.moved h fun j e => by cases e; exact hk
  | push k p hk h => exact hi.moved h fun j e => by cases e
  | stop k hk hn =>
    refine ⟨fun j f hj => ?_, hi.pipe⟩
    have e : j ≠ k := fun e => by subst e; rw [hn] at hj; cases hj
    exact (Function.update_of_ne e ..).trans (hi.hand j f hj)
  | relay p hs hr h => exact hi.moved h fun j e => by cases e
  | fail f hs hf hr => exact ⟨hi.hand, fun h => by rw [hr] at h; cases h⟩
  | poll hd hc => exact ⟨hi.hand, hi.pipe⟩
  | receive f p hr h => exact hi.moved h fun j e => by cases e
  | leave hr => exact ⟨hi.hand, fun h => by cases h⟩

theorem inv {s : Relay} (h : Reach interfaces s) : Inv interfaces s := by
  refine h.inv ?_ fun _ _ _ hi ⟨_, hs⟩ => step_inv hi hs
  rintro s ⟨l, -, rfl⟩
  refine ⟨fun k f hk => ?_, fun _ => .init rfl⟩
  cases hk

/-! ## After the last sender -/

/-- The invariant, and no sender left. -/
structure Over (interfaces : Interfaces) (s : Relay) : Prop extends Inv interfaces s where
  closed : s.Closed

/-- What is left to do: to spawn the relay, to move each frame on, to be rid of the receiver. -/
def work (s : Relay) : Nat :=
  (if s.spawned then 0 else 1) + (if s.receiving then 1 else 0) + 3 * s.pipe.rq.buf.length +
    2 * s.pipe.relay.toList.length + s.pipe.q.buf.length

/-- The relay found its channel closed. -/
def Polled (a : Act) (s t : Relay) : Prop := a = .relay ∧ s.Drained ∧ t = s.poll

/-- Without a sender, a step is one of the finitely many left or a poll. -/
theorem step_cases {a : Act} {s t : Relay} (ho : Over interfaces s) (h : Step interfaces a s t) :
    t.Closed ∧ (t.work < s.work ∨ (t.work ≤ s.work ∧ Polled a s t)) := by
  have hc := ho.closed
  have hh := hc.hand ho.toInv
  cases h with
  | spawn k todo hx ht => rw [hc.original] at hx; cases hx
  | drop hx ht => rw [hc.original] at hx; cases hx
  | read k p hk h => rw [hc.clones] at hk; cases hk
  | push k p hk h => rw [hc.clones] at hk; cases hk
  | stop k hk hn => rw [hc.clones] at hk; cases hk
  | recv hx hs =>
    refine ⟨⟨hc.original, hc.clones⟩, Or.inl ?_⟩
    simp [work, hs]
  | relay p hs hr h =>
    refine ⟨⟨hc.original, hc.clones⟩, Or.inl ?_⟩
    cases h with
    | relayTake f rq' hn hq =>
      simp only [work, Chan.recv_eq_some.mp hq, hn, List.length_cons, Option.toList_some, Option.toList_none,
        List.length_nil]
      omega
    | relayPush f q' hn hq =>
      simp only [work, Chan.send_eq_some.mp hq, hn, List.length_append, List.length_cons, Option.toList_some,
        Option.toList_none, List.length_nil]
      omega
  | fail f hs hf hr =>
    refine ⟨⟨hc.original, hc.clones⟩, Or.inl ?_⟩
    simp [work, hf]
  | poll hd _ => exact ⟨⟨hc.original, hc.clones⟩, Or.inr ⟨Nat.le_refl _, rfl, hd, rfl⟩⟩
  | receive f p hr h =>
    refine ⟨⟨hc.original, hc.clones⟩, Or.inl ?_⟩
    cases h with
    | take f q' hq =>
      simp only [work, Chan.recv_eq_some.mp hq, List.length_cons]
      omega
  | leave hr =>
    refine ⟨⟨hc.original, hc.clones⟩, Or.inl ?_⟩
    simp only [work, hr, Chan.empty_buf, List.length_nil, if_true, Bool.false_eq_true, if_false]
    omega

theorem step_over {a : Act} {s t : Relay} (ho : Over interfaces s) (h : Step interfaces a s t) : Over interfaces t :=
  ⟨step_inv ho.toInv h, (step_cases ho h).1⟩

/-- Someone can always move: the relay, `recv` before it, or the receiver it waits for. -/
theorem progress {s : Relay} (hc : s.Closed) : ∃ a t, Step interfaces a s t := by
  cases hs : s.spawned with
  | false => exact ⟨_, _, .recv hc.original hs⟩
  | true =>
    cases hr : s.pipe.relay with
    | none =>
      by_cases hq : s.pipe.rq.buf = []
      · exact ⟨_, _, .poll ⟨hs, hr, hq⟩ hc⟩
      · obtain ⟨f, rq', hf⟩ := s.pipe.rq.exists_recv hq
        exact ⟨_, _, .relay _ hs (Or.inl hr) (.relayTake f rq' hr hf)⟩
    | some f =>
      cases hv : s.receiving with
      | false => exact ⟨_, _, .fail f hs hr hv⟩
      | true =>
        rcases s.pipe.q.room_or_ne_nil (by decide) with hq | hq
        · obtain ⟨q', hf⟩ := s.pipe.q.exists_send f hq
          exact ⟨_, _, .relay _ hs (Or.inr hv) (.relayPush f q' hr hf)⟩
        · obtain ⟨g, q', hf⟩ := s.pipe.q.exists_recv hq
          exact ⟨_, _, .receive g _ hv (.take g q' hf)⟩

/-- With the relay's hands and channel empty, and the readers', the frames are with the
    receiver. -/
theorem Over.relayed {s : Relay} (ho : Over interfaces s) (hd : s.Drained) (hr : s.receiving = true) :
    Relayed s.pipe := by
  intro k
  have hk := (Pipe.inv (ho.pipe hr)).conserved k
  simp only [Pipe.ofLink, Pipe.way, hd.sent, hd.empty, ho.closed.hand ho.toInv, Option.toList_none, List.append_nil] at hk
  exact hk

/-- Every run comes to the relay's polls, and stays there. -/
theorem Over.polls {s : Relay} (ho : Over interfaces s) (r : Run (Step interfaces) s) :
    ∃ n, ∀ m, n ≤ m → Polled (r.act m) (r.state m) (r.state (m + 1)) :=
  r.settles work ho (fun _ _ _ => step_over) fun _ _ _ ho h => (step_cases ho h).2

theorem Over.run {s : Relay} (ho : Over interfaces s) : Nonempty (Run (Step interfaces) s) := by
  refine Run.exists_of_progress ho fun s ho => ?_
  obtain ⟨a, t, h⟩ := progress ho.closed
  exact ⟨a, t, h, step_over ho h⟩

theorem Over.not_ends {s : Relay} (ho : Over interfaces s) : ¬ Ends interfaces s := by
  intro he
  obtain ⟨r⟩ := ho.run
  obtain ⟨n, hn⟩ := ho.polls r
  obtain ⟨n', -, hn'⟩ := he r
  exact hn' (max n n') (le_max_right ..) (hn (max n n') (le_max_left ..)).1

/-- Once its senders are gone the relay never ends. No order of steps leads to a stop, and
    in each the relay drains its channel, the receiver getting every frame while it is
    there, and then polls the closed channel, over and over. -/
theorem relay_never_ends {s : Relay} (h : Reach interfaces s) (hc : s.Closed) :
    ¬ Ends interfaces s ∧
    (∀ t, Steps interfaces s t → ∃ a u, Step interfaces a t u) ∧
    ∀ r : Run (Step interfaces) s, ∃ n, (r.state n).Drained ∧
      ((r.state n).receiving = true → Relayed (r.state n).pipe) ∧
      ∀ m, n ≤ m → r.act m = .relay ∧ r.state (m + 1) = (r.state m).poll := by
  have ho : Over interfaces s := ⟨inv h, hc⟩
  refine ⟨ho.not_ends, fun t ht => ?_, fun r => ?_⟩
  · have hot : Over interfaces t := by
      induction ht with
      | refl => exact ho
      | tail _ hs ih => obtain ⟨a, hs⟩ := hs; exact step_over ih hs
    exact progress hot.closed
  · obtain ⟨n, hn⟩ := ho.polls r
    have hd := (hn n (Nat.le_refl n)).2.1
    exact ⟨n, hd, (r.inv ho (fun _ _ _ => step_over) n).relayed hd, fun m hm => ⟨(hn m hm).1, (hn m hm).2.2⟩⟩

/-- One interface; its reader's link failed with a frame still in the relay's channel. -/
theorem relay_never_ends_one : ∃ (interfaces : Interfaces) (s : Relay),
    s.Closed ∧ s.spawned = false ∧ s.pipe.rq.buf = [⟨2, [7]⟩] ∧
    ¬ Ends interfaces s ∧
    (∀ t, Steps interfaces s t → ∃ a u, Step interfaces a t u) ∧
    ∀ r : Run (Step interfaces) s, ∃ n, (r.state n).Drained ∧
      ((r.state n).receiving = true → Relayed (r.state n).pipe) ∧
      ∀ m, n ≤ m → r.act m = .relay ∧ r.state (m + 1) = (r.state m).poll := by
  let interfaces := Interfaces.empty.insert ⟨2, ⟨10, 0, 1, 1⟩, .zero⟩
  have h2 : interfaces.get 2 = some ⟨2, ⟨10, 0, 1, 1⟩, .zero⟩ := by rw [Interfaces.get_insert, if_pos rfl]
  have hr : Reach interfaces _ := .init ⟨[(2, ⟨2, ⟨10, 0, 1, 1⟩, .zero⟩)], by rfl, rfl⟩
  have s1 := hr.step ⟨_, .spawn 2 [] rfl rfl⟩
  have s2 := s1.step ⟨_, .drop rfl rfl⟩
  have s3 := s2.step ⟨_, .read 2 _ rfl (.read 2 _ [7] h2 rfl)⟩
  have s4 := s3.step ⟨_, .push 2 _ rfl (.push 2 ⟨2, [7]⟩ ⟨[⟨2, [7]⟩], by decide⟩ rfl (Chan.send_eq_some.mpr rfl))⟩
  have s5 := s4.step ⟨_, .stop 2 rfl rfl⟩
  have hc : ∀ k, update (update (fun _ : U32 => false) 2 true) 2 false k = false := by
    intro k
    rw [Function.update_idem]
    exact congrFun (Function.update_eq_self 2 fun _ : U32 => false) k
  exact ⟨_, _, ⟨rfl, hc⟩, rfl, rfl, relay_never_ends s5 ⟨rfl, hc⟩⟩

/-- With no interface the channel is closed before the relay starts. -/
theorem no_interface_never_ends : ∃ s : Relay, Reach Interfaces.empty s ∧ s.Closed ∧ ¬ Ends Interfaces.empty s := by
  have hr : Reach Interfaces.empty _ := .init ⟨[], by rfl, rfl⟩
  have s1 := hr.step ⟨_, .drop rfl rfl⟩
  exact ⟨_, s1, ⟨rfl, fun _ => rfl⟩, Over.not_ends ⟨inv s1, ⟨rfl, fun _ => rfl⟩⟩⟩

end Relay

end FabricRs.SendReceive

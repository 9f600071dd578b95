/-
  FabricRs.Network.Liveness — what the tasks of `UserSpace::run` get done (see
  `FabricRs.Network.Tasks`).

  A task that is done with what it does waits for its link, for the timer or for the user;
  otherwise it has a step of its own, or waits for another task. Of a behavior it is asked
  that the tasks a frame goes through (`Alive`, and the reader of its link) are not passed
  over for ever; the others may stop, and nothing is asked of the events.

  - `receiver_idle`: the receiver finishes each frame, so the channel to it has room again
    and again (`q_room`), the relay's hand is empty (`relay_none`), and the readers' channel
    has room (`rq_room`).
  - `links_taken`: each frame read on a link is taken by the receiver.
  - `hellos_reach_table`: each hello read on a link gets into the table, whatever is read
    besides and however full the channels are.
-/

import FabricRs.Lib.MailboxLive
import FabricRs.Network.Delivery

namespace FabricRs.Network

open State UserSpace SendReceive
open Lts (Chan Behavior Enabled Unless Stable)
open Lts.Behavior (LeadsTo leads_of_fair leads_of_often leads_of_unless)
open Mailbox (Agent ord)
open Function (update)

variable {interfaces : Interfaces} {id : U32} {srClient : SendReceive.Client} {lpmTrie : LpmTrie}

/-! ## Runs of the tasks -/

variable (interfaces id srClient lpmTrie) in
abbrev Steps (s t : Net) : Prop := ∃ τ c, Step interfaces id srClient lpmTrie τ c s t

variable (interfaces id srClient lpmTrie) in
abbrev Trace : Type := Behavior (· = init interfaces lpmTrie) (Steps interfaces id srClient lpmTrie)

variable (interfaces id srClient lpmTrie) in
/-- A task's own steps. -/
abbrev Own (τ : Task) (s t : Net) : Prop := Step interfaces id srClient lpmTrie τ .own s t

theorem step_mail {s t : Net} (h : Steps interfaces id srClient lpmTrie s t) :
    Mailbox.Steps (server lpmTrie) (clients interfaces) s.mail t.mail ∨ t.mail = s.mail := by
  obtain ⟨τ, c, hs⟩ := h
  cases hs with
  | take f p _ hpc hh => exact Or.inl ⟨_, .tau 0 _ hpc ⟨rfl, hh, f, rfl⟩⟩
  | handle m _ hm => exact Or.inl ⟨_, hm⟩
  | state m hm => exact Or.inl ⟨_, hm⟩
  | cliRelay m hm => exact Or.inl ⟨_, hm⟩
  | line m _ hm => exact Or.inl ⟨_, hm⟩
  | list m _ hm => exact Or.inl ⟨_, hm⟩
  | _ => exact Or.inr rfl

/-- The actor's and its clients' part of a run. -/
def mailTrace (b : Trace interfaces id srClient lpmTrie) :
    Mailbox.Trace (server lpmTrie) (clients interfaces) stateCap cliCap :=
  b.map Net.mail (fun s hs => by rw [hs]; rfl) fun _ _ _ hs => step_mail hs

/-- The tasks behind the readers, from the relay to the actor, are not passed over for ever. -/
structure Alive (b : Trace interfaces id srClient lpmTrie) : Prop where
  relay : b.Fair (Own interfaces id srClient lpmTrie .relay)
  receiver : b.Fair (Own interfaces id srClient lpmTrie .receiver)
  state : b.Fair (Own interfaces id srClient lpmTrie .state)

section Fairness

variable {b : Trace interfaces id srClient lpmTrie} (hfair : Alive b)

include hfair

theorem fair_actor : (mailTrace b).Fair (Mailbox.Acts (server lpmTrie) (clients interfaces) .server) := by
  refine hfair.state.map (fun s _ ⟨m, hm⟩ => ⟨_, .state m hm⟩) fun s t ht => ?_
  cases ht with
  | state m hm => exact hm

/-- The receiver in a call is a fair client: only what it does there gets it out. -/
theorem fair_receiver : (mailTrace b).Fair (Mailbox.Acts (server lpmTrie) (clients interfaces) (.client 0)) := by
  have hbusy := hfair.receiver.restrict (P := fun s => s.mail.pc 0 ≠ .idle) ?_
  · refine hbusy.map (fun s hr ⟨m, hpc, hm⟩ => ⟨_, hpc, .handle m (handler_busy hr hpc) hm⟩) fun s t ⟨hpc, ht⟩ => ?_
    cases ht with
    | take f p _ hpc' _ => exact absurd hpc' hpc
    | handle m _ hm => exact ⟨hpc, hm⟩
  · intro s t _ hpc ⟨τ, c, hs⟩ hn
    have hother : ∀ {a m}, Mailbox.Step (server lpmTrie) (clients interfaces) a s.mail m → a ≠ .client 0 → m.pc 0 ≠ .idle := by
      intro a m hm ha
      rw [(Mailbox.step_pc hm 0).resolve_right ha]
      exact hpc
    cases hs with
    | take f p _ hpc' _ => exact absurd hpc' hpc
    | handle m hh hm => exact absurd (.handle m hh hm) hn
    | state m hm => exact hother hm (by simp)
    | cliRelay m hm => exact hother hm (by simp)
    | line m _ hm => exact hother hm (by simp)
    | list m _ hm => exact hother hm (by simp)
    | _ => exact hpc

end Fairness

/-! ## The receiver -/

/-- The receiver is done with its frame. -/
def Idle (s : Net) : Prop := s.mail.pc 0 = .idle ∧ (s.mail.loc 0).handler = .idle

/-- What is left of a handler's turn. -/
def left : Handler → Nat
  | .get _ _ => 2
  | .add _ _ => 1
  | .idle => 0
  | .panicked => 0

theorem left_ret {h : Handler} (hi : h ≠ .idle) (hp : h ≠ .panicked) (r : Option Reply) : left (h.ret r) < left h := by
  cases h with
  | idle => exact absurd rfl hi
  | panicked => exact absurd rfl hp
  | get id ni =>
    rcases r with _ | ⟨_ | v⟩ | _
    · exact Nat.zero_lt_two
    · exact Nat.one_lt_two
    · cases v with
      | neighbor n => exact Nat.one_lt_two
      | route n => exact Nat.zero_lt_two
      | forwarding n => exact Nat.zero_lt_two
    · exact Nat.zero_lt_two
  | add id n => rcases r with _ | ⟨_ | _⟩ | _ <;> exact Nat.zero_lt_one

/-- Only the receiver's own steps change where it stands. -/
theorem step_receiver {τ : Task} {c : Cause} {s t : Net} (h : Step interfaces id srClient lpmTrie τ c s t) :
    (t.mail.pc 0 = s.mail.pc 0 ∧ t.mail.loc 0 = s.mail.loc 0) ∨ (τ = .receiver ∧ c = .own) := by
  have hother : ∀ {a m}, Mailbox.Step (server lpmTrie) (clients interfaces) a s.mail m → a ≠ .client 0 →
      m.pc 0 = s.mail.pc 0 ∧ m.loc 0 = s.mail.loc 0 := by
    intro a m hm ha
    exact ⟨(Mailbox.step_pc hm 0).resolve_right ha, (Mailbox.step_loc hm 0).resolve_right ha⟩
  cases h with
  | take f p _ _ _ => exact Or.inr ⟨rfl, rfl⟩
  | handle m _ _ => exact Or.inr ⟨rfl, rfl⟩
  | state m hm => exact Or.inl (hother hm (by simp))
  | cliRelay m hm => exact Or.inl (hother hm (by simp))
  | line m _ hm => exact Or.inl (hother hm (by simp))
  | list m _ hm => exact Or.inl (hother hm (by simp))
  | _ => exact Or.inl ⟨rfl, rfl⟩

/-- Between its calls the receiver begins the next one. -/
theorem receiver_begins {s t : Net} (h : Own interfaces id srClient lpmTrie .receiver s t) (hpc : s.mail.pc 0 = .idle)
    (hh : (s.mail.loc 0).handler ≠ .idle) : t.mail.pc 0 ≠ .idle ∧ t.mail.loc 0 = s.mail.loc 0 := by
  cases h with
  | take f p _ _ hi => exact absurd hi hh
  | handle m _ hm =>
    cases hm with
    | tau _ l _ ht => exact absurd ht.2.1 hh
    | begin _ cmd _ _ _ =>
      refine ⟨?_, rfl⟩
      simp only [Function.update_self, ne_eq, reduceCtorEq, not_false_eq_true]
    | push _ r _ hp _ _ _ => rw [hpc] at hp; cases hp
    | post _ r _ hp _ _ _ => rw [hpc] at hp; cases hp
    | ask _ r _ hp _ _ => rw [hpc] at hp; cases hp
    | recv _ r _ hp _ => rw [hpc] at hp; cases hp

/-- In a call it goes on, or is back from it with less to do. -/
theorem receiver_calls {s t : Net} (hr : Reach interfaces id srClient lpmTrie s)
    (h : Own interfaces id srClient lpmTrie .receiver s t) (hpc : s.mail.pc 0 ≠ .idle) :
    (t.mail.pc 0 ≠ .idle ∧ t.mail.loc 0 = s.mail.loc 0) ∨ left (t.mail.loc 0).handler < left (s.mail.loc 0).handler := by
  have hret : ∀ r, left ((s.mail.loc 0).handler.ret r) < left (s.mail.loc 0).handler :=
    left_ret (handler_busy hr hpc) (not_panicked hr)
  cases h with
  | take f p _ hi _ => exact absurd hi hpc
  | handle m _ hm =>
    cases hm with
    | tau _ l hp _ => exact absurd hp hpc
    | begin _ cmd hp _ _ => exact absurd hp hpc
    | push _ r _ hp _ _ _ =>
      refine Or.inl ⟨?_, rfl⟩
      simp only [Function.update_self, ne_eq, reduceCtorEq, not_false_eq_true]
    | post _ r _ hp _ _ _ =>
      refine Or.inr ?_
      show left (update s.mail.loc 0 _ 0).handler < _
      rw [Function.update_self]
      exact hret none
    | ask _ r _ hp hd _ => cases hd
    | recv _ r v hp _ =>
      refine Or.inr ?_
      show left (update s.mail.loc 0 _ 0).handler < _
      rw [Function.update_self]
      exact hret (some v)

section

variable {b : Trace interfaces id srClient lpmTrie} (hfair : Alive b)

include hfair

theorem receiver_returns (k : Nat) :
    b.LeadsTo (fun s => s.mail.pc 0 ≠ .idle ∧ left (s.mail.loc 0).handler = k) fun s => left (s.mail.loc 0).handler < k := by
  have hu : Unless (· = init interfaces lpmTrie) (Steps interfaces id srClient lpmTrie)
      (fun s => s.mail.pc 0 ≠ .idle ∧ left (s.mail.loc 0).handler = k) fun s => left (s.mail.loc 0).handler < k := by
    intro s t hr ⟨hpc, hk⟩ ⟨τ, c, hs⟩
    rcases step_receiver hs with ⟨h1, h2⟩ | ⟨rfl, rfl⟩
    · exact Or.inl ⟨by rw [h1]; exact hpc, by rw [h2]; exact hk⟩
    · rcases receiver_calls hr hs hpc with ⟨h1, h2⟩ | hlt
      · exact Or.inl ⟨h1, by rw [h2]; exact hk⟩
      · exact Or.inr (hk ▸ hlt)
  intro n ⟨hpc, hk⟩
  -- the receiver sends to the actor itself
  have hrel : (clients interfaces).direct 0 = false →
      (mailTrace b).Fair (Mailbox.Acts (server lpmTrie) (clients interfaces) .relay) := fun h => by cases h
  obtain ⟨m, hm, hidle⟩ := Mailbox.idle_of (by decide) (fair_actor hfair) hrel (fair_receiver hfair) (by decide) n hpc
  rcases Lts.Behavior.lasts hu hm ⟨hpc, hk⟩ with h | ⟨j, hj, -, hlt⟩
  · exact absurd hidle h.1
  · exact ⟨j, hj, hlt⟩

theorem receiver_calls_again (k : Nat) :
    b.LeadsTo (fun s => (s.mail.pc 0 = .idle ∧ (s.mail.loc 0).handler ≠ .idle) ∧ left (s.mail.loc 0).handler = k)
      fun s => s.mail.pc 0 ≠ .idle ∧ left (s.mail.loc 0).handler = k := by
  have hstep : ∀ s t, Own interfaces id srClient lpmTrie .receiver s t →
      (s.mail.pc 0 = .idle ∧ (s.mail.loc 0).handler ≠ .idle) ∧ left (s.mail.loc 0).handler = k →
      t.mail.pc 0 ≠ .idle ∧ left (t.mail.loc 0).handler = k := by
    intro s t hs ⟨⟨hpc, hh⟩, hk⟩
    obtain ⟨h1, h2⟩ := receiver_begins hs hpc hh
    exact ⟨h1, by rw [h2]; exact hk⟩
  refine leads_of_fair hfair.receiver (fun s t hr hp ⟨τ, c, hs⟩ => ?_) (fun s hr ⟨⟨hpc, hh⟩, _⟩ => ?_)
    fun s t _ hp hs => hstep s t hs hp
  · rcases step_receiver hs with ⟨h1, h2⟩ | ⟨rfl, rfl⟩
    · exact Or.inl (by rw [h1, h2]; exact hp)
    · exact Or.inr (hstep s t hs hp)
  · have hbegin : ∀ cmd, (s.mail.loc 0).handler.call = some cmd →
        Enabled (Own interfaces id srClient lpmTrie .receiver) s := fun cmd hc =>
      ⟨_, .handle _ hh (.begin 0 cmd hpc hc fun hd => by cases hd)⟩
    cases hc : (s.mail.loc 0).handler with
    | idle => exact absurd hc hh
    | get id ni => exact hbegin _ (by rw [hc]; rfl)
    | add id n => exact hbegin _ (by rw [hc]; rfl)
    | panicked => exact absurd hc (not_panicked hr)

/-- The receiver finishes every frame. -/
theorem receiver_idle : b.Often Idle := by
  refine LeadsTo.often (LeadsTo.rank (fun s => left (s.mail.loc 0).handler) fun k n ⟨hn, hk⟩ => ?_)
  have hlt : ∃ m, n ≤ m ∧ left ((b.state m).mail.loc 0).handler < k := by
    by_cases hpc : (b.state n).mail.pc 0 = .idle
    · have hh : ((b.state n).mail.loc 0).handler ≠ .idle := fun hh => hn ⟨hpc, hh⟩
      exact ((receiver_calls_again hfair k).trans (receiver_returns hfair k)) n ⟨⟨hpc, hh⟩, hk⟩
    · exact receiver_returns hfair k n ⟨hpc, hk⟩
  obtain ⟨m, hm, hlt⟩ := hlt
  by_cases hi : Idle (b.state m)
  · exact ⟨m, hm, Or.inr hi⟩
  · exact ⟨m, hm, Or.inl ⟨hi, hlt⟩⟩

end

/-! ## The frames -/

/-- A receiver that is done with its frame takes the next one. -/
theorem receiver_takes {s t : Net} (h : Own interfaces id srClient lpmTrie .receiver s t) (hi : Idle s) :
    ∃ f, s.pipe.q.buf = f :: t.pipe.q.buf ∧ t.pipe.taken = s.pipe.taken ++ [f] := by
  cases h with
  | take f p hp _ _ =>
    cases hp with
    | take _ q' hq => exact ⟨f, Chan.recv_eq_some.mp hq, rfl⟩
  | handle m hh _ => exact absurd hi.2 hh

/-- The relay with empty hands takes a frame. -/
theorem relay_takes {s t : Net} (h : Own interfaces id srClient lpmTrie .relay s t) (hr : s.pipe.relay = none) :
    ∃ f, s.pipe.rq.buf = f :: t.pipe.rq.buf ∧ t.pipe.relay = some f ∧ t.pipe.q = s.pipe.q ∧
      t.pipe.taken = s.pipe.taken := by
  cases h with
  | relay p hp =>
    cases hp with
    | relayTake f rq' _ hq => exact ⟨f, Chan.recv_eq_some.mp hq, rfl, rfl, rfl⟩
    | relayPush f q' hr' _ => rw [hr] at hr'; cases hr'

/-- With a frame in its hand it sends it. -/
theorem relay_sends {s t : Net} (h : Own interfaces id srClient lpmTrie .relay s t) {f : Frame}
    (hr : s.pipe.relay = some f) :
    t.pipe.relay = none ∧ t.pipe.q.buf = s.pipe.q.buf ++ [f] ∧ t.pipe.taken = s.pipe.taken := by
  cases h with
  | relay p hp =>
    cases hp with
    | relayTake _ _ hr' _ => rw [hr] at hr'; cases hr'
    | relayPush g q' hr' hs =>
      rw [hr] at hr'
      cases hr'
      exact ⟨rfl, Chan.send_eq_some.mp hs, rfl⟩

/-- The others put frames behind those of the receiver's channel. -/
theorem step_q {τ : Task} {c : Cause} {s t : Net} (h : Step interfaces id srClient lpmTrie τ c s t) :
    (s.pipe.q.buf <+: t.pipe.q.buf ∧ t.pipe.taken = s.pipe.taken) ∨ (τ = .receiver ∧ c = .own ∧ Idle s) := by
  cases h with
  | read k p hp => cases hp; exact Or.inl ⟨List.prefix_refl _, rfl⟩
  | push k p hp => cases hp; exact Or.inl ⟨List.prefix_refl _, rfl⟩
  | relay p hp =>
    cases hp with
    | relayTake _ _ _ _ => exact Or.inl ⟨List.prefix_refl _, rfl⟩
    | relayPush f q' _ hs => exact Or.inl ⟨⟨[f], (Chan.send_eq_some.mp hs).symm⟩, rfl⟩
  | take f p _ hpc hh => exact Or.inr ⟨rfl, rfl, hpc, hh⟩
  | _ => exact Or.inl ⟨List.prefix_refl _, rfl⟩

/-- And only the relay changes its hand, or takes from the readers' channel. -/
theorem step_rq {τ : Task} {c : Cause} {s t : Net} (h : Step interfaces id srClient lpmTrie τ c s t) :
    (t.pipe.relay = s.pipe.relay ∧ s.pipe.rq.buf <+: t.pipe.rq.buf ∧
      (t.pipe.q = s.pipe.q ∨ (τ = .receiver ∧ c = .own ∧ Idle s))) ∨ (τ = .relay ∧ c = .own) := by
  cases h with
  | read k p hp => cases hp; exact Or.inl ⟨rfl, List.prefix_refl _, Or.inl rfl⟩
  | push k p hp =>
    cases hp with
    | push _ f rq' _ hs => exact Or.inl ⟨rfl, ⟨[f], (Chan.send_eq_some.mp hs).symm⟩, Or.inl rfl⟩
  | relay p _ => exact Or.inr ⟨rfl, rfl⟩
  | take f p hp hpc hh => cases hp; exact Or.inl ⟨rfl, List.prefix_refl _, Or.inr ⟨rfl, rfl, hpc, hh⟩⟩
  | _ => exact Or.inl ⟨rfl, List.prefix_refl _, Or.inl rfl⟩

/-- A reader's hand is its own, and full until it has sent. -/
theorem step_hand {τ : Task} {c : Cause} {s t : Net} (h : Step interfaces id srClient lpmTrie τ c s t) {k : U32} {f : Frame}
    (hk : s.pipe.hand k = some f) : t.pipe.hand k = some f ∨ (τ = .reader k ∧ c = .own) := by
  cases h with
  | read j p hp =>
    cases hp with
    | read _ i buf _ hj =>
      refine Or.inl ((Function.update_of_ne (fun e => ?_) _ _).trans hk)
      rw [← e, hk] at hj
      cases hj
  | push j p hp =>
    cases hp with
    | push _ g rq' _ _ =>
      by_cases e : k = j
      · exact Or.inr ⟨by rw [e], rfl⟩
      · exact Or.inl ((Function.update_of_ne e _ _).trans hk)
  | relay p hp => cases hp <;> exact Or.inl hk
  | take g p hp _ _ => cases hp; exact Or.inl hk
  | _ => exact Or.inl hk

/-- On their way frames stay in order, and new ones come behind them. -/
theorem step_way {τ : Task} {c : Cause} {s t : Net} (h : Step interfaces id srClient lpmTrie τ c s t) :
    s.pipe.way <+: t.pipe.way := by
  suffices hl : ∃ l, t.pipe.way = s.pipe.way ++ l from hl.imp fun l e => e.symm
  cases h with
  | read k p hp => cases hp; exact ⟨[], (List.append_nil _).symm⟩
  | push k p hp =>
    cases hp with
    | push _ f rq' _ hs => exact ⟨[f], by simp [Pipe.way, Chan.send_eq_some.mp hs]⟩
  | relay p hp =>
    cases hp with
    | relayTake f rq' hr hq => exact ⟨[], by simp [Pipe.way, hr, Chan.recv_eq_some.mp hq]⟩
    | relayPush f q' hr hs => exact ⟨[], by simp [Pipe.way, hr, Chan.send_eq_some.mp hs]⟩
  | take f p hp _ _ =>
    cases hp with
    | take _ q' hq => exact ⟨[], by simp [Pipe.way, Chan.recv_eq_some.mp hq]⟩
  | _ => exact ⟨[], (List.append_nil _).symm⟩

theorem step_links {τ : Task} {c : Cause} {s t : Net} (h : Step interfaces id srClient lpmTrie τ c s t) (k : U32) :
    s.pipe.links k <+: t.pipe.links k := by
  cases h with
  | read j p hp =>
    cases hp with
    | read _ i buf _ _ =>
      show _ <+: update s.pipe.links j (s.pipe.links j ++ [buf]) k
      by_cases e : k = j
      · rw [e, Function.update_self]
        exact List.prefix_append _ _
      · rw [Function.update_of_ne e]
  | push j p hp => cases hp; exact List.prefix_refl _
  | relay p hp => cases hp <;> exact List.prefix_refl _
  | take f p hp _ _ => cases hp; exact List.prefix_refl _
  | _ => exact List.prefix_refl _

/-- What the receiver has taken, and what is in the table, stays. -/
theorem hellos_mono (b : Trace interfaces id srClient lpmTrie) {n m : Nat} (hm : n ≤ m) :
    hellos interfaces (b.state n).mail <+: hellos interfaces (b.state m).mail :=
  hellos_along (mailTrace b) hm

theorem table_mono (b : Trace interfaces id srClient lpmTrie) {n m : Nat} (hm : n ≤ m) :
    applied interfaces (b.state n).mail <+: applied interfaces (b.state m).mail :=
  applied_along (mailTrace b) (fun n => receiving (b.reach n)) hm

theorem reader_pushes {k : U32} {s t : Net} (h : Own interfaces id srClient lpmTrie (.reader k) s t) {f : Frame}
    (hk : s.pipe.hand k = some f) : t.pipe.way = s.pipe.way ++ [f] := by
  cases h with
  | push _ p hp =>
    cases hp with
    | push _ g rq' hj hs =>
      rw [hk] at hj
      cases hj
      simp [Pipe.way, Chan.send_eq_some.mp hs]

section

variable {b : Trace interfaces id srClient lpmTrie} (hfair : Alive b)

include hfair

/-- What is in the receiver's channel is taken. -/
theorem q_taken (k : Nat) :
    b.LeadsTo (fun s => s.pipe.q.buf ≠ [] ∧ s.pipe.taken.length = k) fun s => k < s.pipe.taken.length := by
  have htake : ∀ s t, Own interfaces id srClient lpmTrie .receiver s t → Idle s → s.pipe.taken.length = k →
      k < t.pipe.taken.length := by
    intro s t hs hi hk
    obtain ⟨f, -, ht⟩ := receiver_takes hs hi
    rw [ht, List.length_append, hk]
    exact Nat.lt_succ_self k
  have hu : Unless (· = init interfaces lpmTrie) (Steps interfaces id srClient lpmTrie)
      (fun s => s.pipe.q.buf ≠ [] ∧ s.pipe.taken.length = k) fun s => k < s.pipe.taken.length := by
    intro s t _ ⟨hq, hk⟩ ⟨τ, c, hs⟩
    rcases step_q hs with ⟨hpre, ht⟩ | ⟨rfl, rfl, hi⟩
    · exact Or.inl ⟨fun e => hq (List.prefix_nil.mp (e ▸ hpre)), by rw [ht, hk]⟩
    · exact Or.inr (htake s t hs hi hk)
  refine (leads_of_unless hu (receiver_idle hfair)).trans_or (leads_of_fair hfair.receiver (fun s t hr ⟨hp, hi⟩ hs => ?_)
    (fun s _ ⟨⟨hq, _⟩, hi⟩ => ?_) fun s t _ ⟨⟨_, hk⟩, hi⟩ hs => htake s t hs hi hk)
  · obtain ⟨τ, c, hs'⟩ := hs
    rcases step_receiver hs' with ⟨h1, h2⟩ | ⟨rfl, rfl⟩
    · exact (hu s t hr hp ⟨τ, c, hs'⟩).imp_left fun h => ⟨h, by rw [Idle, h1, h2]; exact hi⟩
    · exact Or.inr (htake s t hs' hi hp.2)
  · obtain ⟨f, q', hf⟩ := s.pipe.q.exists_recv hq
    exact ⟨_, .take f _ (.take f q' hf) hi.1 hi.2⟩

theorem q_room : b.Often fun s => s.pipe.q.buf.length < chanCap := by
  refine LeadsTo.often fun n hfull => ?_
  have hu : ∀ k, Unless (· = init interfaces lpmTrie) (Steps interfaces id srClient lpmTrie)
      (fun s => ¬ s.pipe.q.buf.length < chanCap ∧ s.pipe.taken.length = k) fun s => s.pipe.q.buf.length < chanCap := by
    intro k s t _ ⟨hfull, hk⟩ ⟨τ, c, hs⟩
    rcases step_q hs with ⟨-, ht⟩ | ⟨rfl, rfl, hi⟩
    · exact (em _).symm.imp_left fun h => ⟨h, by rw [ht, hk]⟩
    · obtain ⟨f, hq, -⟩ := receiver_takes hs hi
      have hle := s.pipe.q.le
      rw [hq, List.length_cons] at hle
      exact Or.inr hle
  have hne : (b.state n).pipe.q.buf ≠ [] := fun e => hfull (by rw [e]; decide)
  obtain ⟨m, hm, hlt⟩ := q_taken hfair _ n ⟨hne, rfl⟩
  rcases Lts.Behavior.lasts (hu _) hm ⟨hfull, rfl⟩ with h | ⟨j, hj, -, h⟩
  · exact absurd (h.2 ▸ hlt) (Nat.lt_irrefl _)
  · exact ⟨j, hj, h⟩

theorem relay_none : b.Often fun s => s.pipe.relay = none := by
  refine LeadsTo.often fun n hn => ?_
  obtain ⟨f, hf⟩ := Option.ne_none_iff_exists'.mp hn
  refine leads_of_often (P := fun s => s.pipe.relay = some f) hfair.relay (q_room hfair) (fun s t _ hr ⟨τ, c, hs⟩ => ?_)
    (fun s _ hr hroom => ?_) (fun s t _ hr hs => (relay_sends hs hr).1) n hf
  · rcases step_rq hs with ⟨he, -⟩ | ⟨rfl, rfl⟩
    · exact Or.inl (he.trans hr)
    · exact Or.inr (relay_sends hs hr).1
  · obtain ⟨q', hq⟩ := s.pipe.q.exists_send f hroom
    exact ⟨_, .relay _ (.relayPush f q' hr hq)⟩

theorem rq_room : b.Often fun s => s.pipe.rq.buf.length < chanCap := by
  have htake : ∀ s t, Own interfaces id srClient lpmTrie .relay s t → s.pipe.relay = none →
      t.pipe.rq.buf.length < chanCap := by
    intro s t hs hr
    obtain ⟨f, hq, -⟩ := relay_takes hs hr
    have hle := s.pipe.rq.le
    rw [hq, List.length_cons] at hle
    exact hle
  have hnone := leads_of_unless (b := b) (P := fun s => ¬ s.pipe.rq.buf.length < chanCap)
    (Q := fun s => s.pipe.rq.buf.length < chanCap) (fun s t _ _ _ => (em _).symm) (relay_none hfair)
  refine LeadsTo.often (hnone.trans_or (leads_of_fair hfair.relay (fun s t _ ⟨hfull, hr⟩ ⟨τ, c, hs⟩ => ?_)
    (fun s _ ⟨hfull, hr⟩ => ?_) fun s t _ ⟨_, hr⟩ hs => htake s t hs hr))
  · rcases step_rq hs with ⟨he, -⟩ | ⟨rfl, rfl⟩
    · exact (em _).symm.imp_left fun h => ⟨h, he.trans hr⟩
    · exact Or.inr (htake s t hs hr)
  · obtain ⟨f, rq', hq⟩ := s.pipe.rq.exists_recv fun e => hfull (by rw [e]; decide)
    exact ⟨_, .relay _ (.relayTake f rq' hr hq)⟩

/-- A reader is free for its link again and again. -/
theorem hand_free {k : U32} (hk : b.Fair (Own interfaces id srClient lpmTrie (.reader k))) : b.Often fun s => s.pipe.hand k = none := by
  refine (leads_of_often hk (rq_room hfair) (fun s t _ _ _ => (em _).symm) (fun s _ hk hroom => ?_)
    fun s t _ _ hs => ?_).often
  · obtain ⟨f, hf⟩ := Option.ne_none_iff_exists'.mp hk
    obtain ⟨q', hq⟩ := s.pipe.rq.exists_send f hroom
    exact ⟨_, .push k _ (.push k f q' hf hq)⟩
  · cases hs with
    | push _ p hp => cases hp; exact Function.update_self ..

/-- What the relay holds goes on to the receiver's channel. -/
theorem relay_sent (k : Nat) :
    b.LeadsTo (fun s => s.pipe.relay ≠ none ∧ s.pipe.taken.length = k) fun s => k < s.pipe.taken.length := by
  intro n ⟨hn, hk⟩
  obtain ⟨f, hf⟩ := Option.ne_none_iff_exists'.mp hn
  have hsend : ∀ s t, Own interfaces id srClient lpmTrie .relay s t → s.pipe.relay = some f → s.pipe.taken.length = k →
      (t.pipe.q.buf ≠ [] ∧ t.pipe.taken.length = k) ∨ k < t.pipe.taken.length := by
    intro s t hs hr hk
    obtain ⟨-, hq, ht⟩ := relay_sends hs hr
    exact Or.inl ⟨by rw [hq]; simp, by rw [ht, hk]⟩
  refine (leads_of_often (P := fun s => s.pipe.relay = some f ∧ s.pipe.taken.length = k) hfair.relay (q_room hfair)
    (fun s t _ ⟨hr, hk⟩ ⟨τ, c, hs⟩ => ?_) (fun s _ ⟨hr, _⟩ hroom => ?_) fun s t _ ⟨hr, hk⟩ hs => hsend s t hs hr hk).trans_or
    (q_taken hfair k) n ⟨hf, hk⟩
  · rcases step_rq hs with ⟨he, -⟩ | ⟨rfl, rfl⟩
    · rcases step_q hs with ⟨-, ht⟩ | ⟨rfl, rfl, hi⟩
      · exact Or.inl ⟨he.trans hr, by rw [ht, hk]⟩
      · obtain ⟨g, -, ht⟩ := receiver_takes hs hi
        exact Or.inr (Or.inr (by rw [ht, List.length_append, hk]; exact Nat.lt_succ_self k))
    · exact Or.inr (hsend s t hs hr hk)
  · obtain ⟨q', hq⟩ := s.pipe.q.exists_send f hroom
    exact ⟨_, .relay _ (.relayPush f q' hr hq)⟩

/-- What is in the readers' channel goes on to the relay. -/
theorem rq_sent (k : Nat) :
    b.LeadsTo (fun s => (s.pipe.relay = none ∧ s.pipe.rq.buf ≠ []) ∧ s.pipe.taken.length = k)
      fun s => k < s.pipe.taken.length := by
  have htake : ∀ s t, Own interfaces id srClient lpmTrie .relay s t → s.pipe.relay = none → s.pipe.taken.length = k →
      (t.pipe.relay ≠ none ∧ t.pipe.taken.length = k) ∨ k < t.pipe.taken.length := by
    intro s t hs hr hk
    obtain ⟨f, -, hf, -, ht⟩ := relay_takes hs hr
    exact Or.inl ⟨by rw [hf]; simp, by rw [ht, hk]⟩
  refine (leads_of_fair hfair.relay (fun s t _ ⟨⟨hr, hq⟩, hk⟩ ⟨τ, c, hs⟩ => ?_) (fun s _ ⟨⟨hr, hq⟩, _⟩ => ?_)
    fun s t _ ⟨⟨hr, _⟩, hk⟩ hs => htake s t hs hr hk).trans_or (relay_sent hfair k)
  · rcases step_rq hs with ⟨he, hpre, -⟩ | ⟨rfl, rfl⟩
    · rcases step_q hs with ⟨-, ht⟩ | ⟨rfl, rfl, hi⟩
      · exact Or.inl ⟨⟨he.trans hr, fun e => hq (List.prefix_nil.mp (e ▸ hpre))⟩, by rw [ht, hk]⟩
      · obtain ⟨g, -, ht⟩ := receiver_takes hs hi
        exact Or.inr (Or.inr (by rw [ht, List.length_append, hk]; exact Nat.lt_succ_self k))
    · exact Or.inr (htake s t hs hr hk)
  · obtain ⟨f, rq', hf⟩ := s.pipe.rq.exists_recv hq
    exact ⟨_, .relay _ (.relayTake f rq' hr hf)⟩

/-- Every frame that has left its reader is taken. -/
theorem way_taken (n : Nat) : ∃ m, n ≤ m ∧ (b.state n).pipe.way <+: (b.state m).pipe.taken := by
  have hcount : ∀ i, b.LeadsTo (fun s => i < s.pipe.way.length) fun s => i < s.pipe.taken.length := by
    intro i
    refine LeadsTo.count (fun s : Net => s.pipe.taken.length) i (fun s t _ hi ⟨_, _, hs⟩ => ?_) fun k hk n ⟨hi, hc⟩ => ?_
    · exact Nat.lt_of_lt_of_le hi (step_way hs).length_le
    · by_cases hq : (b.state n).pipe.q.buf = []
      · by_cases hr : (b.state n).pipe.relay = none
        · have hrq : (b.state n).pipe.rq.buf ≠ [] := by
            intro e
            simp only [Pipe.way, hq, hr, e, Option.toList_none, List.append_nil] at hi
            omega
          exact rq_sent hfair k n ⟨⟨hr, hrq⟩, hc⟩
        · exact relay_sent hfair k n ⟨hr, hc⟩
      · exact q_taken hfair k n ⟨hq, hc⟩
  have hpre : ∀ m, n ≤ m → (b.state n).pipe.way <+: (b.state m).pipe.way := fun m hm =>
    Lts.Behavior.stable (P := fun s : Net => (b.state n).pipe.way <+: s.pipe.way)
      (fun s t _ h ⟨_, _, hs⟩ => h.trans (step_way hs)) hm (List.prefix_refl _)
  by_cases h0 : (b.state n).pipe.way.length = 0
  · exact ⟨n, Nat.le_refl n, by rw [List.length_eq_zero_iff.mp h0]; exact List.nil_prefix⟩
  · obtain ⟨m, hm, hlt⟩ := hcount _ n (Nat.sub_one_lt h0)
    have htaken : (b.state m).pipe.taken <+: (b.state m).pipe.way := by
      unfold Pipe.way
      simp only [List.append_assoc]
      exact List.prefix_append _ _
    exact ⟨m, hm, List.prefix_of_prefix_length_le (hpre m hm) htaken (by omega)⟩

/-- A reader sends the frame it holds. -/
theorem hand_sent {k : U32} (hread : b.Fair (Own interfaces id srClient lpmTrie (.reader k))) (l : Nat) :
    b.LeadsTo (fun s => l ≤ (s.pipe.ofLink k).length) fun s => l ≤ (s.pipe.way.filter (·.ifidx = k)).length := by
  intro n hl
  cases hh : (b.state n).pipe.hand k with
  | none =>
    refine ⟨n, Nat.le_refl n, ?_⟩
    rw [Pipe.ofLink, hh, Option.toList_none, List.append_nil] at hl
    exact hl
  | some f =>
    have hpush : ∀ s t, Reach interfaces id srClient lpmTrie s → Own interfaces id srClient lpmTrie (.reader k) s t →
        s.pipe.hand k = some f → l ≤ (s.pipe.way.filter (·.ifidx = k)).length + 1 →
        l ≤ (t.pipe.way.filter (·.ifidx = k)).length := by
      intro s t hr hs hf hl
      have hix := (Pipe.inv (reach_pipe hr)).tagged k f hf
      rw [reader_pushes hs hf, List.filter_append, List.length_append]
      simpa [hix] using hl
    refine leads_of_often (P := fun s => s.pipe.hand k = some f ∧ l ≤ (s.pipe.way.filter (·.ifidx = k)).length + 1)
      hread (rq_room hfair) (fun s t hr ⟨hf, hl⟩ ⟨τ, c, hs⟩ => ?_) (fun s _ ⟨hf, _⟩ hroom => ?_)
      (fun s t hr ⟨hf, hl⟩ hs => hpush s t hr hs hf hl) n ⟨hh, ?_⟩
    · rcases step_hand hs hf with hf' | ⟨rfl, rfl⟩
      · refine Or.inl ⟨hf', hl.trans (Nat.succ_le_succ ?_)⟩
        exact ((step_way hs).filter _).length_le
      · exact Or.inr (hpush s t hr hs hf hl)
    · obtain ⟨q', hq⟩ := s.pipe.rq.exists_send f hroom
      exact ⟨_, .push k _ (.push k f q' hf hq)⟩
    · rw [Pipe.ofLink, hh, Option.toList_some, List.length_append] at hl
      exact hl

/-- The receiver takes every frame that was read on a link. -/
theorem links_taken {k : U32} (hread : b.Fair (Own interfaces id srClient lpmTrie (.reader k))) (n : Nat) : ∃ m, n ≤ m ∧
    ((b.state n).pipe.links k).map (⟨k, ·⟩) <+: (b.state m).pipe.taken.filter (·.ifidx = k) := by
  have hlen : (((b.state n).pipe.links k).map (Frame.mk k)).length ≤ ((b.state n).pipe.ofLink k).length := by
    rw [(Pipe.inv (reach_pipe (b.reach n))).conserved k]
  obtain ⟨m1, hm1, hway⟩ := hand_sent hfair hread _ n hlen
  obtain ⟨m2, hm2, htaken⟩ := way_taken hfair m1
  have hlinks : ((b.state n).pipe.links k).map (Frame.mk k) <+: ((b.state m2).pipe.links k).map (Frame.mk k) :=
    (Lts.Behavior.stable (P := fun s : Net => (b.state n).pipe.links k <+: s.pipe.links k)
      (fun s t _ h ⟨_, _, hs⟩ => h.trans (step_links hs k)) (hm1.trans hm2) (List.prefix_refl _)).map _
  refine ⟨m2, hm1.trans hm2, List.prefix_of_prefix_length_le hlinks ?_ ?_⟩
  · rw [← (Pipe.inv (reach_pipe (b.reach m2))).conserved k]
    unfold Pipe.ofLink Pipe.way
    simp only [List.filter_append, List.append_assoc]
    exact List.prefix_append _ _
  · exact hway.trans (htaken.filter _).length_le

/-- The actor serves every request that was queued. -/
theorem all_served (n : Nat) : ∃ m, n ≤ m ∧ ord (b.state n).mail <+: UserSpace.served (b.state m).mail := by
  have hpre : ∀ m, n ≤ m → ord (b.state n).mail <+: ord (b.state m).mail := fun m hm => Mailbox.ord_mono (mailTrace b) hm
  by_cases h0 : (ord (b.state n).mail).length = 0
  · exact ⟨n, Nat.le_refl n, by rw [List.length_eq_zero_iff.mp h0]; exact List.nil_prefix⟩
  · obtain ⟨m, hm, hlt⟩ := Mailbox.served (fair_actor hfair) _ n (Nat.sub_one_lt h0)
    have hlen : (ord (b.state n).mail).length ≤ (UserSpace.served (b.state m).mail).length := by
      unfold UserSpace.served
      rw [List.length_map]
      have hlt' : (ord (b.state n).mail).length - 1 < (b.state m).mail.log.length := hlt
      omega
    exact ⟨m, hm, List.prefix_of_prefix_length_le (hpre m hm) (List.prefix_append _ _) hlen⟩

/-- Every hello the receiver has taken gets into the table. -/
theorem hellos_applied (n : Nat) :
    ∃ m, n ≤ m ∧ hellos interfaces (b.state n).mail <+: applied interfaces (b.state m).mail := by
  obtain ⟨m1, hm1, hidle⟩ := receiver_idle hfair n
  obtain ⟨m2, hm2, hserved⟩ := all_served hfair m1
  have h1 := hellos_mono b hm1
  have h2 := hellos_mono b hm2
  obtain ⟨-, -, -, -, -, hall⟩ := receiver_acts (receiving (b.reach m1))
  have hw : (writesOf (ord (b.state m1).mail)).length ≤ (writesOf (UserSpace.served (b.state m2).mail)).length :=
    (hserved.filter _).length_le
  refine ⟨m2, hm1.trans hm2, List.prefix_of_prefix_length_le (h1.trans h2) (List.take_prefix _ _) ?_⟩
  rw [applied, List.length_take]
  have := hall hidle.2
  have := h1.length_le
  have := h2.length_le
  omega

/-- Every hello read on a link gets into the table. -/
theorem links_applied {k : U32} (hread : b.Fair (Own interfaces id srClient lpmTrie (.reader k))) (n : Nat) : ∃ m, n ≤ m ∧
    announcedOn interfaces k (b.state n) <+: (applied interfaces (b.state m).mail).filter (·.2.localIfidx = k) := by
  obtain ⟨m1, hm1, htaken⟩ := links_taken hfair hread n
  obtain ⟨m2, hm2, happlied⟩ := hellos_applied hfair m1
  have hann : announcedOn interfaces k (b.state n) <+: (hellos interfaces (b.state m1).mail).filter (·.2.localIfidx = k) := by
    rw [hellos, seen_taken (b.reach m1), filter_hellos]
    have h := htaken.filterMap (hello interfaces)
    rw [List.filterMap_map] at h
    exact h
  exact ⟨m2, hm1.trans hm2, hann.trans (happlied.filter _)⟩

end

/-- Whatever becomes of the other tasks: if the reader of a link, the relay, the receiver
    and the actor are not passed over for ever, each hello read on the link gets into the
    neighbor table and stays. From some time on the table is what a list of hellos leaves
    that has, of this link, all those read so far in their order, and maybe later ones. -/
theorem hellos_reach_table (b : Trace interfaces id srClient lpmTrie) (hfair : Alive b) {k : U32}
    (hread : b.Fair (Own interfaces id srClient lpmTrie (.reader k))) (n : Nat) :
    ∃ m, n ≤ m ∧ ∀ j, m ≤ j → ∃ hs, (b.state j).mail.srv.nt = hearAll hs ∧
      announcedOn interfaces k (b.state n) <+: hs.filter (·.2.localIfidx = k) ∧
      ∀ k', hs.filter (·.2.localIfidx = k') <+: announcedOn interfaces k' (b.state j) := by
  obtain ⟨m, hm, happlied⟩ := links_applied hfair hread n
  refine ⟨m, hm, fun j hj => ⟨_, receiver_heard (receiving (b.reach j)), ?_, fun k' => ?_⟩⟩
  · exact happlied.trans ((table_mono b hj).filter _)
  · exact ((List.take_prefix _ _).filter _).trans (hellos_of_links (b.reach j) k')

/-- Where nothing waits and nothing is on its way, only an event goes on. -/
theorem Quiet.disabled {s : Net} (hq : Quiet s) (τ : Task) : ¬ Enabled (Own interfaces id srClient lpmTrie τ) s := by
  have hempty : ∀ {n : Nat} {α : Type} {c d : Chan n α} {a : α}, c.buf = [] → c.recv = some (a, d) → False := by
    intro n α c d a h hr
    rw [Chan.recv_eq_some, h] at hr
    cases hr
  rintro ⟨t, ht⟩
  cases ht with
  | push k p hp =>
    cases hp with
    | push _ f _ hk _ => rw [hq.hand k] at hk; cases hk
  | relay p hp =>
    cases hp with
    | relayTake f _ _ hr => exact hempty hq.rq hr
    | relayPush f _ hf _ => rw [hq.relay] at hf; cases hf
  | take f p hp _ _ =>
    cases hp with
    | take _ _ hr => exact hempty hq.q hr
  | handle m hn _ => exact hn hq.handler
  | state m hm =>
    cases hm with
    | serve r _ u v hr _ => exact hempty hq.state hr
  | cliRelay m hm =>
    cases hm with
    | take r _ _ hr => exact hempty hq.cli hr
    | forward r r' _ h _ => rw [hq.cliRelay] at h; cases h
    | answer r r' v h _ => rw [hq.cliRelay] at h; cases h
  | list m hn _ => exact hn (hq.pc 1)
  | drop f rest hf _ => rw [hq.hellos] at hf; cases hf
  | hello f rest _ hf _ _ => rw [hq.hellos] at hf; cases hf
  | send f _ hr => exact hempty hq.sendq hr

/-- One hello is read and handled, and no more happens. -/
theorem hellos_reach_table_one :
    ∃ (b : Trace oneLink 9 ⟨none⟩ noRoutes) (n : Nat), announcedOn oneLink 1 (b.state n) = [(7, heard mac1)] ∧
      ∃ m, n ≤ m ∧ ∀ j, m ≤ j → ∃ hs, (b.state j).mail.srv.nt = hearAll hs ∧
        announcedOn oneLink 1 (b.state n) <+: hs.filter (·.2.localIfidx = 1) ∧
        ∀ k', hs.filter (·.2.localIfidx = k') <+: announcedOn oneLink k' (b.state j) := by
  have h0 : Reach oneLink 9 ⟨none⟩ noRoutes (init oneLink noRoutes) := .init rfl
  obtain ⟨s, h, hq, hlinks, -⟩ := carried h0 init_quiet oneLink_eth1 (helloFrame 1 7 0x0a00000b mac1).msg
  obtain ⟨b, n, hb⟩ := Behavior.exists_of_reach h
  have hend : ∀ τ, b.Fair (Own oneLink 9 ⟨none⟩ noRoutes τ) := fun τ => .of_end hb (hq.disabled τ)
  refine ⟨b, n, ?_, hellos_reach_table b ⟨hend _, hend _, hend _⟩ (hend _) n⟩
  have hf : hello oneLink ⟨1, (helloFrame 1 7 0x0a00000b mac1).msg⟩ = some (7, heard mac1) := hello_heard 7 mac1
  rw [hb n (Nat.le_refl n), announcedOn, hlinks, Function.update_self]
  show List.filterMap _ [_] = _
  rw [List.filterMap_cons, hf]
  rfl

end FabricRs.Network

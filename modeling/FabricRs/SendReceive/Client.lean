/-
  FabricRs.SendReceive.Client — the clients of `SendReceive` (`send_receive.rs`).

  `SendReceive::run` makes the channel that `send_recv`'s sender task drains and puts its
  sender into the `SendReceive`'s own client. `client()` clones that client as it is: one
  handed out before `run` has no channel and never gets one, and `send` through it
  returns `Ok` and does nothing. Clones of a client share what it has.

  `sent` (the calls of `send`), `enq` (what was queued, by whom) and `ok` (the sends that
  returned `Ok`) only record what happened.

  - `enq_eq`: what was queued is what was sent with an `Ok`, less what early clients sent.
  - `delivered_iff`: no accepted frame is lost exactly if no early client is used.
  - `user_space_loses_hello`: `UserSpace::run` takes its clients before it runs the
    `SendReceive`.
-/

import Mathlib.Logic.Function.Basic
import FabricRs.Basic
import FabricRs.Lib.Lts

namespace FabricRs.SendReceive

open Lts (Chan update_cases)
open Function (update)

/-- The sending half of the channel `run` makes. -/
inductive Sender where
  | mk
  deriving DecidableEq

structure Client where
  senderChannel : Option Sender
  deriving DecidableEq

/-- The capacity of the channels `run` makes. -/
def chanCap : Nat := 100

/-- A client that was handed out, or a clone of one. -/
structure Handle where
  client : Client
  /-- It, or the one it is a clone of, was handed out before `run`. -/
  early : Bool

structure St where
  client : Client
  ran : Bool
  handles : List Handle
  /-- A frame whose send waits for a free slot. -/
  pending : Nat → Option Frame
  q : Chan chanCap Frame
  /-- The sender task, and with it the receiving half of the channel, is gone. -/
  gone : Bool
  sent : List (Nat × Frame)
  enq : List (Nat × Frame)
  ok : List (Nat × Frame)

/-- `SendReceive::new`. -/
def new : St := ⟨⟨none⟩, false, [], fun _ => none, .empty, false, [], [], []⟩

inductive Step : St → St → Prop
  | client {s} : Step s { s with handles := s.handles ++ [⟨s.client, !s.ran⟩] }
  | clone {s} (h : Nat) (x : Handle) : s.handles[h]? = some x → Step s { s with handles := s.handles ++ [x] }
  | run {s} : s.ran = false → Step s { s with ran := true, client := ⟨some .mk⟩ }
  /-- `send` with no channel. -/
  | drop {s} (h : Nat) (x : Handle) (f : Frame) : s.ran = true → s.handles[h]? = some x →
      x.client.senderChannel = none → s.pending h = none →
      Step s { s with sent := s.sent ++ [(h, f)], ok := s.ok ++ [(h, f)] }
  | send {s} (h : Nat) (x : Handle) (f : Frame) : s.ran = true → s.handles[h]? = some x →
      x.client.senderChannel = some .mk → s.pending h = none →
      Step s { s with sent := s.sent ++ [(h, f)], pending := update s.pending h (some f) }
  | push {s} (h : Nat) (f : Frame) (q' : Chan chanCap Frame) : s.pending h = some f → s.gone = false →
      s.q.send f = some q' →
      Step s { s with
        q := q'
        pending := update s.pending h none
        enq := s.enq ++ [(h, f)]
        ok := s.ok ++ [(h, f)] }
  /-- The receiver is gone: `send` returns the error. -/
  | fail {s} (h : Nat) (f : Frame) : s.pending h = some f → s.gone = true →
      Step s { s with pending := update s.pending h none }
  /-- The sender task takes a frame. -/
  | drain {s} (f : Frame) (q' : Chan chanCap Frame) : s.gone = false → s.q.recv = some (f, q') → Step s { s with q := q' }
  | stop {s} : s.ran = true → Step s { s with gone := true, q := .empty }

abbrev Reach : St → Prop := Lts.Reach (· = new) Step

/-- The handle `h` is an early one. -/
def early (handles : List Handle) (h : Nat) : Bool := (handles[h]?).elim false (·.early)

/-- Every frame a client sent with an `Ok` was queued, once, each client's in its order. -/
def Delivered (s : St) : Prop := ∀ h, s.enq.filter (·.1 = h) = s.ok.filter (·.1 = h)

structure Inv (s : St) : Prop where
  ran : s.ran = s.client.senderChannel.isSome
  handles : ∀ x ∈ s.handles, x.early = x.client.senderChannel.isNone
  pending : ∀ h f, s.pending h = some f → (h, f) ∈ s.sent ∧ early s.handles h = false
  valid : ∀ x ∈ s.sent, x.1 < s.handles.length
  accepted : ∀ x ∈ s.ok, x ∈ s.sent
  dropped : ∀ x ∈ s.sent, early s.handles x.1 = true → x ∈ s.ok
  queued : s.enq = s.ok.filter fun x => !early s.handles x.1

theorem early_of {handles : List Handle} {h : Nat} {x : Handle} (hx : handles[h]? = some x) :
    early handles h = x.early := by
  unfold early
  rw [hx]
  rfl

/-- New handles leave the old ones as they are. -/
theorem early_append {handles : List Handle} (x : Handle) {h : Nat} (hh : h < handles.length) :
    early (handles ++ [x]) h = early handles h := by
  unfold early
  rw [List.getElem?_append_left hh]

theorem forall_mem_snoc {α : Type} {p : α → Prop} {l : List α} {a : α} :
    (∀ x ∈ l ++ [a], p x) ↔ (∀ x ∈ l, p x) ∧ p a := by
  simp only [List.forall_mem_append, List.forall_mem_singleton]

/-- A send that has returned waits for nothing. -/
theorem Inv.pending_update {s : St} (hi : Inv s) {h h' : Nat} {f : Frame} (hp : update s.pending h none h' = some f) :
    (h', f) ∈ s.sent ∧ early s.handles h' = false := by
  rcases update_cases hp with ⟨-, hf⟩ | ⟨-, hf⟩
  · cases hf
  · exact hi.pending h' f hf

theorem Inv.handle {s t : St} (hi : Inv s) {x : Handle} (hx : x.early = x.client.senderChannel.isNone)
    (ht : t = { s with handles := s.handles ++ [x] }) : Inv t := by
  subst ht
  have hlen : (s.handles ++ [x]).length = s.handles.length + 1 := by simp
  have hearly : ∀ y ∈ s.sent, early (s.handles ++ [x]) y.1 = early s.handles y.1 := fun y hy =>
    early_append x (hi.valid y hy)
  refine ⟨hi.ran, fun y hy => ?_, fun h f hp => ?_, fun y hy => ?_, hi.accepted, fun y hy he => ?_, ?_⟩
  · rcases List.mem_append.mp hy with hy | hy
    · exact hi.handles y hy
    · rw [List.mem_singleton.mp hy]; exact hx
  · obtain ⟨h1, h2⟩ := hi.pending h f hp
    exact ⟨h1, by rw [← h2]; exact hearly _ h1⟩
  · show y.1 < (s.handles ++ [x]).length
    have := hi.valid y hy
    omega
  · exact hi.dropped y hy (by rw [← hearly y hy]; exact he)
  · show s.enq = _
    rw [hi.queued]
    refine List.filter_congr fun y hy => ?_
    rw [hearly y (hi.accepted y hy)]

theorem step_inv {s t : St} (hi : Inv s) (h : Step s t) : Inv t := by
  cases h with
  | client =>
    refine hi.handle ?_ rfl
    show (!s.ran) = _
    rw [hi.ran]
    cases s.client.senderChannel <;> rfl
  | clone h x hx => exact hi.handle (hi.handles x (List.mem_of_getElem? hx)) rfl
  | run hr => exact { hi with ran := rfl }
  | drop h x f _ hx hc hp =>
    have he : early s.handles h = true := by rw [early_of hx, hi.handles x (List.mem_of_getElem? hx), hc]; rfl
    have hlt : h < s.handles.length := (List.getElem?_eq_some_iff.mp hx).1
    refine ⟨hi.ran, hi.handles, fun h' f' hp' => ?_, forall_mem_snoc.mpr ⟨hi.valid, hlt⟩, ?_, ?_, ?_⟩
    · exact ⟨List.mem_append_left _ (hi.pending h' f' hp').1, (hi.pending h' f' hp').2⟩
    · refine forall_mem_snoc.mpr ⟨fun y hy => ?_, ?_⟩
      · exact List.mem_append_left _ (hi.accepted y hy)
      · exact List.mem_append_right _ (List.mem_singleton_self _)
    · refine forall_mem_snoc.mpr ⟨fun y hy hy' => ?_, fun _ => ?_⟩
      · exact List.mem_append_left _ (hi.dropped y hy hy')
      · exact List.mem_append_right _ (List.mem_singleton_self _)
    · show s.enq = (s.ok ++ [(h, f)]).filter fun x => !early s.handles x.1
      rw [List.filter_append, ← hi.queued]
      simp [he]
  | send h x f _ hx hc hp =>
    have he : early s.handles h = false := by rw [early_of hx, hi.handles x (List.mem_of_getElem? hx), hc]; rfl
    have hlt : h < s.handles.length := (List.getElem?_eq_some_iff.mp hx).1
    refine ⟨hi.ran, hi.handles, fun h' f' hp' => ?_, forall_mem_snoc.mpr ⟨hi.valid, hlt⟩, fun y hy => ?_,
      forall_mem_snoc.mpr ⟨hi.dropped, fun hy => ?_⟩, hi.queued⟩
    · rcases update_cases hp' with ⟨rfl, hf⟩ | ⟨-, hf⟩
      · rw [Option.some.injEq] at hf
        subst hf
        exact ⟨List.mem_append_right _ (List.mem_singleton_self _), he⟩
      · exact ⟨List.mem_append_left _ (hi.pending h' f' hf).1, (hi.pending h' f' hf).2⟩
    · exact List.mem_append_left _ (hi.accepted y hy)
    · exact absurd (he.symm.trans hy) Bool.false_ne_true
  | push h f q' hp _ _ =>
    obtain ⟨hm, he⟩ := hi.pending h f hp
    refine ⟨hi.ran, hi.handles, fun _ _ hp' => hi.pending_update hp', hi.valid, forall_mem_snoc.mpr ⟨hi.accepted, hm⟩,
      fun y hy hy' => ?_, ?_⟩
    · exact List.mem_append_left _ (hi.dropped y hy hy')
    · show s.enq ++ [(h, f)] = (s.ok ++ [(h, f)]).filter fun x => !early s.handles x.1
      rw [List.filter_append, ← hi.queued]
      simp [he]
  | fail h f hp _ => exact { hi with pending := fun _ _ hp' => hi.pending_update hp' }
  | drain f q' _ _ => exact { hi with }
  | stop _ => exact { hi with }

theorem inv {s : St} (h : Reach s) : Inv s := by
  refine h.inv ?_ fun _ _ _ hi hs => step_inv hi hs
  intro s hs
  subst hs
  exact ⟨rfl, by simp [new], by simp [new], by simp [new], by simp [new], by simp [new], rfl⟩

/-- What was queued: the accepted frames of the clients that have the channel. -/
theorem enq_eq {s : St} (h : Reach s) : s.enq = s.ok.filter fun x => !early s.handles x.1 := (inv h).queued

/-- In any interleaving of handing out clients, cloning, running and sending, the accepted
    frames are all queued exactly if `send` is never called on a client handed out before
    `run`, or on a clone of one. -/
theorem delivered_iff {s : St} (h : Reach s) : Delivered s ↔ ∀ x ∈ s.sent, early s.handles x.1 = false := by
  have hi := inv h
  unfold Delivered
  rw [enq_eq h]
  constructor
  · intro hd x hx
    by_contra he
    have hok := hi.dropped x hx (Bool.eq_true_of_not_eq_false he)
    have hm : x ∈ s.ok.filter (·.1 = x.1) := List.mem_filter.mpr ⟨hok, decide_eq_true rfl⟩
    rw [← hd x.1] at hm
    have hn := (List.mem_filter.mp (List.mem_filter.mp hm).1).2
    exact he (by simpa using hn)
  · intro he h'
    have hall : s.ok.filter (fun x => !early s.handles x.1) = s.ok :=
      List.filter_eq_self.mpr fun x hx => by rw [he x (hi.accepted x hx)]; rfl
    rw [hall]

/-- The clients as `UserSpace::run` makes them: `client()`, a clone of it for itself, then
    `run`, then a clone for the receiver. The disco sender has the first. -/
def userSpace : St :=
  ⟨⟨some .mk⟩, true, [⟨⟨none⟩, true⟩, ⟨⟨none⟩, true⟩, ⟨⟨none⟩, true⟩], fun _ => none, .empty, false, [], [], []⟩

theorem userSpace_reach : Reach userSpace := by
  have h1 : Reach { new with handles := [⟨⟨none⟩, true⟩] } := .step (.init rfl) .client
  have h2 := h1.step (.clone 0 ⟨⟨none⟩, true⟩ rfl)
  have h3 := h2.step (.run rfl)
  exact h3.step (.clone 1 ⟨⟨none⟩, true⟩ rfl)

/-- The disco sender's first frame is accepted, and queued nowhere. -/
theorem user_space_loses_hello : ∃ s : St, Reach s ∧ Step userSpace s ∧ s.ok = [(0, ⟨1, [7]⟩)] ∧ s.enq = [] ∧
    s.q.buf = [] ∧ ¬ Delivered s := by
  have hs := Step.drop (s := userSpace) 0 ⟨⟨none⟩, true⟩ ⟨1, [7]⟩ rfl rfl rfl rfl
  refine ⟨_, userSpace_reach.step hs, hs, rfl, rfl, rfl, fun hd => ?_⟩
  have h0 := hd 0
  cases h0

/-- The disco sender's first hello is sent through an early client. -/
theorem delivered_iff_userSpace : ∃ s : St, Reach s ∧ s.ok = [(0, ⟨1, [7]⟩)] ∧
    (Delivered s ↔ ∀ x ∈ s.sent, early s.handles x.1 = false) := by
  have hs := userSpace_reach.step (.drop 0 ⟨⟨none⟩, true⟩ ⟨1, [7]⟩ rfl rfl rfl rfl)
  exact ⟨_, hs, rfl, delivered_iff hs⟩

end FabricRs.SendReceive

/-
  FabricRs.SendReceive.Pipeline — the way of a received frame (`SendReceive::send_recv`,
  `SendReceive::recv`, the loop of `UserSpace::receiver`).

  One reader for each interface takes frames off the link and sends each, with the
  interface's index, into a channel all readers share; a relay copies that channel into
  the one `UserSpace::receiver` takes from. Both hold 100 frames, a task that sends into a
  full one waits with the frame in its hand. `links` (the frames each reader took) and
  `taken` (those the receiver took) only record what happened.

  - `pipeline_conserves`: per interface, what the receiver took, what is on the way and what the
    reader holds are the frames read, in order, with the interface's index.
-/

import Mathlib.Logic.Function.Basic
import FabricRs.Basic
import FabricRs.Lib.Lts
import FabricRs.SendReceive.Client

namespace FabricRs.SendReceive

open Lts (Chan update_cases)
open Function (update)
open Wire (Bytes)

structure Pipe where
  links : U32 → List Bytes
  /-- The frame a reader sends. -/
  hand : U32 → Option Frame
  /-- From the readers to the relay. -/
  rq : Chan chanCap Frame
  /-- The frame the relay sends. -/
  relay : Option Frame
  /-- From the relay to the receiver. -/
  q : Chan chanCap Frame
  taken : List Frame

namespace Pipe

def init : Pipe := ⟨fun _ => [], fun _ => none, .empty, none, .empty, []⟩

/-- Who moves. A reader in `dl_rx.next()` waits for its link. -/
inductive Act where
  | read (i : U32)
  | push (i : U32)
  | relay
  | take (f : Frame)

variable (interfaces : Interfaces)

inductive Step : Act → Pipe → Pipe → Prop
  | read {s} (k : U32) (interface : Interface) (buf : Bytes) : interfaces.get k = some interface → s.hand k = none →
      Step (.read k) s { s with
        links := update s.links k (s.links k ++ [buf])
        hand := update s.hand k (some ⟨interface.ifidx, buf⟩) }
  | push {s} (k : U32) (f : Frame) (rq' : Chan chanCap Frame) : s.hand k = some f → s.rq.send f = some rq' →
      Step (.push k) s { s with rq := rq', hand := update s.hand k none }
  | relayTake {s} (f : Frame) (rq' : Chan chanCap Frame) : s.relay = none → s.rq.recv = some (f, rq') →
      Step .relay s { s with rq := rq', relay := some f }
  | relayPush {s} (f : Frame) (q' : Chan chanCap Frame) : s.relay = some f → s.q.send f = some q' →
      Step .relay s { s with q := q', relay := none }
  | take {s} (f : Frame) (q' : Chan chanCap Frame) : s.q.recv = some (f, q') →
      Step (.take f) s { s with q := q', taken := s.taken ++ [f] }

abbrev Reach (s : Pipe) : Prop := Lts.Reach (· = init) (fun s t => ∃ a, Step interfaces a s t) s

/-- The frames the receiver took and those on the way to it, behind the readers. -/
def way (s : Pipe) : List Frame := s.taken ++ s.q.buf ++ s.relay.toList ++ s.rq.buf

/-- Of the interface `k`: the frames past its reader, then the one it holds. -/
def ofLink (s : Pipe) (k : U32) : List Frame := s.way.filter (·.ifidx = k) ++ (s.hand k).toList

structure Inv (s : Pipe) : Prop where
  tagged : ∀ k f, s.hand k = some f → f.ifidx = k
  conserved : ∀ k, s.ofLink k = (s.links k).map (⟨k, ·⟩)
  /-- Only configured interfaces have readers. -/
  configured : ∀ k, interfaces.get k = none → s.links k = []

variable {interfaces}

/-- Between the readers and the receiver a frame only moves on. -/
theorem Inv.moved {s t : Pipe} (hi : Inv interfaces s) (hl : t.links = s.links) (hh : t.hand = s.hand)
    (hw : t.way = s.way) : Inv interfaces t := by
  refine ⟨by rw [hh]; exact hi.tagged, fun k => ?_, by rw [hl]; exact hi.configured⟩
  unfold ofLink
  rw [hw, hh, hl]
  exact hi.conserved k

theorem step_inv {a : Act} {s t : Pipe} (hi : Inv interfaces s) (h : Step interfaces a s t) : Inv interfaces t := by
  cases h with
  | read k interface buf hk hh =>
    have hix : interface.ifidx = k := interfaces.keyed k interface hk
    refine ⟨fun j f hj => ?_, fun j => ?_, fun j hj => ?_⟩
    · rcases update_cases hj with ⟨rfl, h⟩ | ⟨-, h⟩
      · rw [← Option.some.inj h]
        exact hix
      · exact hi.tagged j f h
    · have hc := hi.conserved j
      unfold ofLink at hc ⊢
      by_cases e : j = k
      · subst e
        rw [hh, Option.toList_none, List.append_nil] at hc
        simp only [Function.update_self, Option.toList_some, List.map_append, List.map_singleton, hix]
        exact congrArg (· ++ _) hc
      · simp only [Function.update_of_ne e]
        exact hc
    · have e : j ≠ k := fun e => by rw [e, hk] at hj; cases hj
      simp only [Function.update_of_ne e]
      exact hi.configured j hj
  | push k f rq' hh hs =>
    have hix := hi.tagged k f hh
    refine ⟨fun j g hj => ?_, fun j => ?_, hi.configured⟩
    · rcases update_cases hj with ⟨-, h⟩ | ⟨-, h⟩
      · cases h
      · exact hi.tagged j g h
    · have hc := hi.conserved j
      have hw : ({ s with rq := rq', hand := update s.hand k none } : Pipe).way = s.way ++ [f] := by
        simp only [way, Chan.send_eq_some.mp hs, List.append_assoc]
      unfold ofLink at hc ⊢
      rw [hw, List.filter_append]
      by_cases e : j = k
      · subst e
        rw [hh] at hc
        simp only [Function.update_self, List.filter_cons, hix]
        simpa using hc
      · have hne : ¬ k = j := fun h => e h.symm
        simp only [Function.update_of_ne e, List.filter_cons, hix]
        simpa [hne] using hc
  | relayTake f rq' hr hq =>
    refine hi.moved rfl rfl ?_
    simp [way, hr, Chan.recv_eq_some.mp hq]
  | relayPush f q' hr hs =>
    refine hi.moved rfl rfl ?_
    simp [way, hr, Chan.send_eq_some.mp hs]
  | take f q' hq =>
    refine hi.moved rfl rfl ?_
    simp [way, Chan.recv_eq_some.mp hq]

theorem inv {s : Pipe} (h : Reach interfaces s) : Inv interfaces s := by
  refine h.inv ?_ fun _ _ _ hi ⟨_, hs⟩ => step_inv hi hs
  intro s hs
  subst hs
  exact ⟨by simp [init], fun k => rfl, fun k _ => rfl⟩

/-- The frames of one interface are neither lost, doubled, reordered nor mislabelled on
    their way to the receiver; a frame in a reader's hand is of that reader's interface. -/
theorem pipeline_conserves {s : Pipe} (h : Reach interfaces s) :
    (∀ k, (s.taken ++ s.q.buf ++ s.relay.toList ++ s.rq.buf).filter (·.ifidx = k) ++ (s.hand k).toList =
      (s.links k).map fun buf => ⟨k, buf⟩) ∧
    ∀ k f, s.hand k = some f → f.ifidx = k :=
  ⟨(inv h).conserved, (inv h).tagged⟩

/-- Two interfaces, a frame of the first with the relay, one of the second in its reader's
    hand. -/
theorem pipeline_conserves_two : ∃ s : Pipe, s.relay = some ⟨2, [7]⟩ ∧ s.hand 3 = some ⟨3, [8]⟩ ∧
    (∀ k, (s.taken ++ s.q.buf ++ s.relay.toList ++ s.rq.buf).filter (·.ifidx = k) ++ (s.hand k).toList =
      (s.links k).map fun buf => ⟨k, buf⟩) ∧
    ∀ k f, s.hand k = some f → f.ifidx = k := by
  let interfaces := (Interfaces.empty.insert ⟨2, ⟨10, 0, 1, 1⟩, .zero⟩).insert ⟨3, ⟨10, 0, 2, 1⟩, .zero⟩
  have h2 : interfaces.get 2 = some ⟨2, ⟨10, 0, 1, 1⟩, .zero⟩ := by
    rw [Interfaces.get_insert, if_neg (by decide), Interfaces.get_insert, if_pos rfl]
  have h3 : interfaces.get 3 = some ⟨3, ⟨10, 0, 2, 1⟩, .zero⟩ := by rw [Interfaces.get_insert, if_pos rfl]
  have hr : Reach interfaces init := .init rfl
  have s1 := hr.step ⟨_, .read 2 _ [7] h2 rfl⟩
  have s2 := s1.step ⟨_, .push 2 ⟨2, [7]⟩ ⟨[⟨2, [7]⟩], by decide⟩ rfl (Chan.send_eq_some.mpr rfl)⟩
  have s3 := s2.step ⟨_, .read 3 _ [8] h3 rfl⟩
  have s4 := s3.step ⟨_, .relayTake ⟨2, [7]⟩ .empty rfl (Chan.recv_eq_some.mpr rfl)⟩
  exact ⟨_, rfl, rfl, pipeline_conserves s4⟩

end Pipe

end FabricRs.SendReceive

/-
  FabricRs.SendReceive.Sender — the sender task of `SendReceive::send_recv`, behind the
  clients' channel (`FabricRs.SendReceive.Client`).

  It takes the queued frames one by one and puts each on the link of its interface; a frame
  for an interface without a sender goes nowhere. A link that refuses a frame makes the
  task panic: what is still queued is gone, for every link, and so is the channel's
  receiving half. `out` (what went onto each link) only records what happened.

  - `sent_per_link`: on each link the accepted frames go out in order, all of them as long
    as the task lives.
-/

import FabricRs.SendReceive.Client

namespace FabricRs.SendReceive

open Lts (Chan)
open Function (update)
open Wire (Bytes)

structure Sending where
  st : St
  out : U32 → List Bytes

namespace Sending

variable (interfaces : Interfaces)

def init : Sending := ⟨new, fun _ => []⟩

inductive Step : Sending → Sending → Prop
  /-- The clients, and what else is not the sender task's. -/
  | other {s} (st : St) : SendReceive.Step s.st st → s.st.q.buf <+: st.q.buf → st.gone = s.st.gone → Step s { s with st := st }
  | send {s} (f : Frame) (q' : Chan chanCap Frame) : s.st.ran = true → s.st.gone = false → s.st.q.recv = some (f, q') →
      (interfaces.get f.ifidx).isSome →
      Step s { st := { s.st with q := q' }, out := update s.out f.ifidx (s.out f.ifidx ++ [f.msg]) }
  | skip {s} (f : Frame) (q' : Chan chanCap Frame) : s.st.ran = true → s.st.gone = false → s.st.q.recv = some (f, q') →
      interfaces.get f.ifidx = none → Step s { s with st := { s.st with q := q' } }
  /-- `send_to` returns an error, or none at all. -/
  | fail {s} (f : Frame) (q' : Chan chanCap Frame) : s.st.ran = true → s.st.gone = false → s.st.q.recv = some (f, q') →
      (interfaces.get f.ifidx).isSome → Step s { s with st := { s.st with gone := true, q := .empty } }

abbrev Reach (s : Sending) : Prop := Lts.Reach (· = init) (Step interfaces) s

variable {interfaces}

/-- The channel's part of a run is one of the clients and the task that drains it. -/
theorem reach_st {s : Sending} (h : Reach interfaces s) : SendReceive.Reach s.st := by
  refine h.map Sending.st (fun s hs => by rw [hs]; rfl) fun s t _ hs => Or.inl ?_
  cases hs with
  | other st hst _ _ => exact hst
  | send f q' _ hg hq _ => exact .drain f q' hg hq
  | skip f q' _ hg hq _ => exact .drain f q' hg hq
  | fail f q' hr _ _ _ => exact .stop hr

/-- The frames that were accepted through a client with the channel. -/
def accepted (s : St) : List Frame := (s.ok.filter fun x => !early s.handles x.1).map (·.2)

theorem accepted_eq {s : Sending} (h : Reach interfaces s) : accepted s.st = s.st.enq.map (·.2) := by
  rw [accepted, ← enq_eq (reach_st h)]

/-- The messages of `fs` for the interface `k`. -/
def ofLink (k : U32) (fs : List Frame) : List Bytes := (fs.filter (·.ifidx = k)).map (·.msg)

theorem ofLink_append (k : U32) (fs fs' : List Frame) : ofLink k (fs ++ fs') = ofLink k fs ++ ofLink k fs' := by
  rw [ofLink, List.filter_append, List.map_append]
  rfl

theorem ofLink_singleton (k : U32) (f : Frame) : ofLink k [f] = if f.ifidx = k then [f.msg] else [] := by
  rw [ofLink, List.filter_singleton]
  by_cases h : f.ifidx = k
  · simp [h]
  · simp [h]

/-- What is not the sender task's adds to the channel what it adds to `enq`. -/
theorem other_queues {s t : St} (h : SendReceive.Step s t) (hq : s.q.buf <+: t.q.buf) (hg : t.gone = s.gone) :
    ∃ fs, t.q.buf = s.q.buf ++ fs ∧ t.enq.map (·.2) = s.enq.map (·.2) ++ fs ∧ (s.gone = true → fs = []) := by
  have hsame : t.q.buf = s.q.buf → t.enq = s.enq → ∃ fs, t.q.buf = s.q.buf ++ fs ∧
      t.enq.map (·.2) = s.enq.map (·.2) ++ fs ∧ (s.gone = true → fs = []) := fun h1 h2 =>
    ⟨[], by rw [h1, List.append_nil], by rw [h2, List.append_nil], fun _ => rfl⟩
  cases h with
  | push h f q' _ hgone hs =>
    refine ⟨[f], Chan.send_eq_some.mp hs, by simp, fun he => ?_⟩
    rw [hgone] at he
    cases he
  | drain f q' _ hr =>
    have hlen := hq.length_le
    rw [Chan.recv_eq_some.mp hr, List.length_cons] at hlen
    exact absurd hlen (Nat.not_succ_le_self _)
  | stop _ => exact hsame (List.prefix_nil.mp hq).symm rfl
  | _ => exact hsame rfl rfl

variable (interfaces) in
/-- `drained` is what the sender task has taken and not lost. -/
structure Inv (s : Sending) (drained : List Frame) : Prop where
  out : ∀ k, s.out k = if (interfaces.get k).isSome then ofLink k drained else []
  queued : drained ++ s.st.q.buf <+: s.st.enq.map (·.2)
  alive : s.st.gone = false → drained ++ s.st.q.buf = s.st.enq.map (·.2)

theorem step_inv {s t : Sending} {drained : List Frame} (hi : Inv interfaces s drained) (h : Step interfaces s t) :
    ∃ drained', Inv interfaces t drained' := by
  cases h with
  | other st hst hq hg =>
    obtain ⟨fs, h1, h2, h3⟩ := other_queues hst hq hg
    refine ⟨drained, hi.out, ?_, fun ha => ?_⟩
    · show drained ++ st.q.buf <+: st.enq.map (·.2)
      rw [h1, h2, ← List.append_assoc]
      cases hs : s.st.gone with
      | true =>
        rw [h3 hs, List.append_nil, List.append_nil]
        exact hi.queued
      | false => rw [hi.alive hs]
    · show drained ++ st.q.buf = st.enq.map (·.2)
      rw [h1, h2, ← List.append_assoc, hi.alive (hg ▸ ha)]
  | send f q' _ hg hq hf =>
    have hall : drained ++ [f] ++ q'.buf = s.st.enq.map (·.2) := by
      rw [← hi.alive hg, Chan.recv_eq_some.mp hq, List.append_assoc]
      rfl
    refine ⟨drained ++ [f], fun k => ?_, by rw [← hall], fun _ => hall⟩
    rw [ofLink_append, ofLink_singleton]
    by_cases e : k = f.ifidx
    · subst e
      simp only [Function.update_self, hi.out, hf, if_true]
    · simp only [Function.update_of_ne e, hi.out, if_neg (Ne.symm e), List.append_nil]
  | skip f q' _ hg hq hf =>
    have hall : drained ++ [f] ++ q'.buf = s.st.enq.map (·.2) := by
      rw [← hi.alive hg, Chan.recv_eq_some.mp hq, List.append_assoc]
      rfl
    refine ⟨drained ++ [f], fun k => ?_, by rw [← hall], fun _ => hall⟩
    show s.out k = _
    rw [hi.out, ofLink_append, ofLink_singleton]
    by_cases e : f.ifidx = k
    · subst e
      rw [hf]
      rfl
    · rw [if_neg e, List.append_nil]
  | fail f q' _ _ _ _ =>
    refine ⟨drained, hi.out, ?_, fun h => by cases h⟩
    show drained ++ [] <+: _
    rw [List.append_nil]
    exact (List.prefix_append _ _).trans hi.queued

theorem inv {s : Sending} (h : Reach interfaces s) : ∃ drained, Inv interfaces s drained := by
  refine h.inv (P := fun s => ∃ drained, Inv interfaces s drained) ?_ fun s t _ ⟨d, hd⟩ hs => step_inv hd hs
  intro s hs
  subst hs
  exact ⟨[], fun k => by rw [ofLink, List.filter_nil, List.map_nil, ite_self]; rfl, List.nil_prefix, fun _ => rfl⟩

/-- On the link of a configured interface go, in order, the frames for it that were
    accepted through clients with the channel: all but those still queued as long as the
    sender task lives, the first ones if it is gone. On another none does. -/
theorem sent_per_link {s : Sending} (h : Reach interfaces s) (k : U32) :
    ((interfaces.get k).isSome → s.out k <+: ofLink k (accepted s.st) ∧
      (s.st.gone = false → s.out k ++ ofLink k s.st.q.buf = ofLink k (accepted s.st))) ∧
    (interfaces.get k = none → s.out k = []) := by
  obtain ⟨drained, hi⟩ := inv h
  rw [accepted_eq h]
  refine ⟨fun hk => ⟨?_, fun ha => ?_⟩, fun hk => by rw [hi.out, hk]; rfl⟩
  · rw [hi.out, if_pos hk]
    exact (((List.prefix_append _ _).trans hi.queued).filter _).map _
  · rw [hi.out, if_pos hk, ← ofLink_append, hi.alive ha]

/-- A frame for a configured interface goes out, one for another does not. -/
theorem sent_per_link_two : ∃ s : Sending, accepted s.st = [⟨2, [7]⟩, ⟨9, [8]⟩] ∧ s.st.q.buf = [] ∧ s.out 2 = [[7]] ∧
    ((((Interfaces.empty.insert ⟨2, ⟨10, 0, 1, 1⟩, .zero⟩).get 2).isSome → s.out 2 <+: ofLink 2 (accepted s.st) ∧
      (s.st.gone = false → s.out 2 ++ ofLink 2 s.st.q.buf = ofLink 2 (accepted s.st))) ∧
    ((Interfaces.empty.insert ⟨2, ⟨10, 0, 1, 1⟩, .zero⟩).get 2 = none → s.out 2 = [])) := by
  let interfaces := Interfaces.empty.insert ⟨2, ⟨10, 0, 1, 1⟩, .zero⟩
  have h2 : (interfaces.get 2).isSome := by rw [Interfaces.get_insert, if_pos rfl]; rfl
  have h9 : interfaces.get 9 = none := by rw [Interfaces.get_insert, if_neg (by decide)]; rfl
  have s0 : Reach interfaces init := .init rfl
  have s1 := s0.step (.other _ (.run rfl) (List.prefix_refl _) rfl)
  have s2 := s1.step (.other _ .client (List.prefix_refl _) rfl)
  have s3 := s2.step (.other _ (.send 0 ⟨⟨some .mk⟩, false⟩ ⟨2, [7]⟩ rfl rfl rfl rfl) (List.prefix_refl _) rfl)
  have s4 := s3.step (.other _ (.push 0 ⟨2, [7]⟩ ⟨[⟨2, [7]⟩], by decide⟩ rfl rfl (Chan.send_eq_some.mpr rfl)) List.nil_prefix rfl)
  have s5 := s4.step (.send ⟨2, [7]⟩ .empty rfl rfl (Chan.recv_eq_some.mpr rfl) h2)
  have s6 := s5.step (.other _ (.send 0 ⟨⟨some .mk⟩, false⟩ ⟨9, [8]⟩ rfl rfl rfl rfl) (List.prefix_refl _) rfl)
  have s7 := s6.step (.other _ (.push 0 ⟨9, [8]⟩ ⟨[⟨9, [8]⟩], by decide⟩ rfl rfl (Chan.send_eq_some.mpr rfl)) List.nil_prefix rfl)
  have s8 := s7.step (.skip ⟨9, [8]⟩ .empty rfl rfl (Chan.recv_eq_some.mpr rfl) h9)
  exact ⟨_, rfl, rfl, rfl, sent_per_link s8 2⟩

/-- Once a link has refused a frame nothing goes out on any link, and no send through a
    client with the channel is accepted. -/
theorem stopped {s t : Sending} (hs : Reach interfaces s) (hg : s.st.gone = true)
    (h : Lts.Reach (· = s) (Step interfaces) t) : t.st.gone = true ∧ t.out = s.out ∧ accepted t.st = accepted s.st := by
  have hinv : Reach interfaces t ∧ t.st.gone = true ∧ t.out = s.out ∧ t.st.enq.map (·.2) = s.st.enq.map (·.2) := by
    refine h.inv (P := fun t => Reach interfaces t ∧ t.st.gone = true ∧ t.out = s.out ∧
      t.st.enq.map (·.2) = s.st.enq.map (·.2)) (fun t ht => by rw [ht]; exact ⟨hs, hg, rfl, rfl⟩) ?_
    intro u v _ ⟨hu, hgone, hout, henq⟩ huv
    refine ⟨hu.step huv, ?_⟩
    cases huv with
    | other st hst hq hg' =>
      obtain ⟨fs, -, h2, h3⟩ := other_queues hst hq hg'
      refine ⟨hg'.trans hgone, hout, ?_⟩
      show st.enq.map (·.2) = _
      rw [h2, h3 hgone, List.append_nil, henq]
    | send f q' _ ha _ _ => rw [hgone] at ha; cases ha
    | skip f q' _ ha _ _ => rw [hgone] at ha; cases ha
    | fail f q' _ ha _ _ => rw [hgone] at ha; cases ha
  obtain ⟨ht, hgone, hout, henq⟩ := hinv
  exact ⟨hgone, hout, by rw [accepted_eq ht, accepted_eq hs, henq]⟩

end Sending

end FabricRs.SendReceive

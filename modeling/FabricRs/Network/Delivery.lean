/-
  FabricRs.Network.Delivery — from the links to the neighbor table.

  A frame goes from its reader over two channels to the receiver, and a hello from there in
  two commands to the State actor. What the table holds is a matter of all of them.

  - `table_of_links`: in every state the table is what some hellos read on the links leave,
    of each link the first ones in order.
-/

import FabricRs.Network.Tasks
import FabricRs.UserSpace.Heard

namespace FabricRs.Network

open State UserSpace SendReceive
open Function (update)

variable {interfaces : Interfaces} {id : U32} {srClient : SendReceive.Client} {lpmTrie : LpmTrie}

variable (interfaces) in
/-- What the frames read on a link announce. -/
def announcedOn (k : U32) (s : Net) : List (U32 × NeighborInterface) :=
  (s.pipe.links k).filterMap fun buf => hello interfaces ⟨k, buf⟩

/-! ## What the receiver has taken -/

theorem receiving {s : Net} (h : Reach interfaces id srClient lpmTrie s) :
    Receiving interfaces (fun c => c == 1) lpmTrie s.mail := by
  -- no other `StateClient` takes a step
  have hcall : ∀ c l cmd, (clients interfaces).call c l cmd →
      (program interfaces (receiverKind fun c => c == 1) NotNeighbors).call c l cmd := by
    intro c l cmd hc
    cases hk : receiverKind (fun c => c == 1) c with
    | handler => exact (program_call_handler hk).mpr ((program_call_handler hk).mp hc)
    | stateClient => exact ((program_call_stateClient hk).mp hc).elim
    | cliClient => exact (program_call_cliClient hk).mpr ((program_call_cliClient hk).mp hc)
  refine Lts.Reach.map (fun m => m) (fun m hm => by rw [hm]; rfl) (fun m m' _ ⟨a, hs⟩ => Or.inl ⟨a, ?_⟩) (reach_mail h)
  cases hs with
  | tau c l hpc ht => exact .tau c l hpc ht
  | begin c call hpc hc hd => exact .begin c call hpc (hcall c _ call hc) hd
  | push c r q' hpc hd hw hq => exact .push c r q' hpc hd hw hq
  | post c r q' hpc hd hw hq => exact .post c r q' hpc hd hw hq
  | ask c r q' hpc hd hq => exact .ask c r q' hpc hd hq
  | recv c r v hpc hv => exact .recv c r v hpc hv
  | serve r q' u v hq hsv => exact .serve r q' u v hq hsv
  | take r q' hr hq => exact .take r q' hr hq
  | forward r r' q' hr hq => exact .forward r r' q' hr hq
  | answer r r' v hr hv => exact .answer r r' v hr hv

/-- A client's call leaves the others' states, and the frames of its own task. -/
theorem client_seen {c : Nat} {m m' : Sys} (h : Mailbox.Step (server lpmTrie) (clients interfaces) (.client c) m m')
    (hc : c = 0 → (m.loc 0).handler ≠ .idle) : (m'.loc 0).seen = (m.loc 0).seen := by
  have hup : ∀ l : TaskState, (c = 0 → l.seen = (m.loc 0).seen) → (update m.loc c l 0).seen = (m.loc 0).seen := by
    intro l hl
    by_cases e : 0 = c
    · subst e
      rw [Function.update_self]
      exact hl rfl
    · rw [Function.update_of_ne e]
  have hret : ∀ cmd r, c = 0 → ((clients interfaces).ret c (m.loc c) cmd r).seen = (m.loc 0).seen := by
    intro cmd r e
    subst e
    rfl
  cases h with
  | tau _ l _ ht =>
    refine hup l fun e => ?_
    subst e
    exact absurd ht.2.1 (hc rfl)
  | begin _ _ _ _ _ => rfl
  | push _ _ _ _ _ _ _ => rfl
  | post _ r _ _ _ _ _ => exact hup _ (hret r.call none)
  | ask _ _ _ _ _ _ => rfl
  | recv _ r v _ _ => exact hup _ (hret r.call (some v))

/-- The receiver's frames are those that left the pipeline. -/
theorem seen_taken {s : Net} (h : Reach interfaces id srClient lpmTrie s) : (s.mail.loc 0).seen = s.pipe.taken := by
  refine h.inv (P := fun s => (s.mail.loc 0).seen = s.pipe.taken) (fun s hs => by rw [hs]; rfl) ?_
  intro s t hr ih ⟨τ, c, hs⟩
  cases hs with
  | read k p hp => cases hp; exact ih
  | push k p hp => cases hp; exact ih
  | relay p hp => cases hp <;> exact ih
  | take f p hp _ _ =>
    cases hp
    have hseen : (update s.mail.loc 0 ⟨(s.mail.loc 0).seen ++ [f], .start (hello interfaces f)⟩ 0).seen =
        (s.mail.loc 0).seen ++ [f] := by rw [Function.update_self]
    exact hseen.trans (congrArg (· ++ [f]) ih)
  | handle m hh hm => exact (client_seen hm fun _ => hh).trans ih
  | state m hm => cases hm; exact ih
  | cliRelay m hm => cases hm <;> exact ih
  | line m _ hm => exact (client_seen hm fun e => by cases e).trans ih
  | list m _ hm => exact (client_seen hm fun e => by cases e).trans ih
  | _ => exact ih

/-! ## In order and nothing else -/

/-- The interface a hello was heard on is the frame's. -/
theorem hello_ifidx {f : Frame} {x : U32 × NeighborInterface} (h : hello interfaces f = some x) :
    x.2.localIfidx = f.ifidx := by
  obtain ⟨ip, mac, i, -, hi, hx⟩ := hello_iff.mp (by rw [h] : hello interfaces f = some (x.1, x.2))
  rw [hx]
  exact interfaces.keyed _ i hi

/-- The hellos of one interface, of frames of any. -/
theorem filter_hellos (fs : List Frame) (k : U32) :
    (fs.filterMap (hello interfaces)).filter (·.2.localIfidx = k) =
      (fs.filter (·.ifidx = k)).filterMap (hello interfaces) := by
  induction fs with
  | nil => rfl
  | cons f fs ih =>
    rw [List.filterMap_cons, List.filter_cons]
    cases hf : hello interfaces f with
    | none =>
      simp only [ih]
      split
      · rw [List.filterMap_cons, hf]
      · rfl
    | some x =>
      simp only [List.filter_cons, hello_ifidx hf, ih]
      split
      · rw [List.filterMap_cons, hf]
      · rfl

/-- Of each link, what the receiver has taken comes first. -/
theorem hellos_of_links {s : Net} (h : Reach interfaces id srClient lpmTrie s) (k : U32) :
    (hellos interfaces s.mail).filter (·.2.localIfidx = k) <+: announcedOn interfaces k s := by
  have hlinks := (Pipe.inv (reach_pipe h)).conserved k
  have hann : announcedOn interfaces k s = ((s.pipe.links k).map (⟨k, ·⟩)).filterMap (hello interfaces) := by
    rw [List.filterMap_map]
    rfl
  rw [hann, ← hlinks, hellos, seen_taken h, filter_hellos]
  unfold Pipe.ofLink Pipe.way
  simp only [List.filter_append, List.filterMap_append, List.append_assoc]
  exact List.prefix_append _ _

theorem not_panicked {s : Net} (h : Reach interfaces id srClient lpmTrie s) : (s.mail.loc 0).handler ≠ .panicked := by
  intro hp
  obtain ⟨acts, -, hat⟩ := inv (reach_mail h)
  cases hat 0 rfl with
  | idle hh _ _ => rw [hp] at hh; cases hh
  | get fs f id ni _ _ _ hh _ _ => rw [hp] at hh; cases hh
  | add fs f id ni o _ _ _ hh _ _ => rw [hp] at hh; cases hh

/-- The neighbor table, in every reachable state: what hellos read on the links leave when
    they are handled alone, of each link the first ones in the order they were read. And
    the receiver has not panicked. -/
theorem table_of_links {s : Net} (h : Reach interfaces id srClient lpmTrie s) :
    (∃ hs, s.mail.srv.nt = hearAll hs ∧
      ∀ k, hs.filter (·.2.localIfidx = k) <+: (s.pipe.links k).filterMap fun buf => hello interfaces ⟨k, buf⟩) ∧
    (s.mail.loc 0).handler ≠ .panicked := by
  refine ⟨⟨_, receiver_heard (receiving h), fun k => ?_⟩, not_panicked h⟩
  exact ((List.take_prefix _ _).filter _).trans (hellos_of_links h k)

/-- Two hellos of one node were read and handled, and a frame between that is none. -/
theorem table_of_links_two : ∃ s : Net,
    s.pipe.links 1 = [(helloFrame 1 7 0x0a00000b mac1).msg, [7], (helloFrame 1 7 0x0a00000b mac2).msg] ∧
    entry s.mail.srv.nt 7 mac1 = some (heard mac1) ∧ entry s.mail.srv.nt 7 mac2 = some (heard mac2) ∧
    (∃ hs, s.mail.srv.nt = hearAll hs ∧
      ∀ k, hs.filter (·.2.localIfidx = k) <+: (s.pipe.links k).filterMap fun buf => hello oneLink ⟨k, buf⟩) ∧
    (s.mail.loc 0).handler ≠ .panicked := by
  have h0 : Reach oneLink 9 ⟨none⟩ noRoutes (init oneLink noRoutes) := .init rfl
  obtain ⟨s1, h1, hq1, hlinks1, hnt1⟩ := carried h0 init_quiet oneLink_eth1 (helloFrame 1 7 0x0a00000b mac1).msg
  obtain ⟨s2, h2, hq2, hlinks2, hnt2⟩ := carried h1 hq1 oneLink_eth1 [7]
  obtain ⟨s3, h3, -, hlinks3, hnt3⟩ := carried h2 hq2 oneLink_eth1 (helloFrame 1 7 0x0a00000b mac2).msg
  have hlinks : s3.pipe.links 1 =
      [(helloFrame 1 7 0x0a00000b mac1).msg, [7], (helloFrame 1 7 0x0a00000b mac2).msg] := by
    rw [hlinks3, hlinks2, hlinks1]
    rfl
  have hnone : receive oneLink s1.mail.srv.nt ⟨1, [7]⟩ = s1.mail.srv.nt := rfl
  have hnt : s3.mail.srv.nt = hear (hear .new 7 (heard mac1)) 7 (heard mac2) := by
    rw [hnt3, hnt2, hnone, hnt1]
    exact (receive_heard _ 7 mac2).trans (congrArg (hear · 7 (heard mac2)) (receive_heard .new 7 mac1))
  refine ⟨s3, hlinks, ?_, ?_, table_of_links h3⟩
  · rw [hnt]
    rfl
  · rw [hnt]
    rfl

end FabricRs.Network

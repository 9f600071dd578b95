/-
  FabricRs.Network.Hellos — the disco sender and the frame sender
  (`UserSpace::disco_sender`, `SendReceive::send_recv`).

  At each tick the disco sender takes the interfaces one by one, in the map's order, and
  sends the hello of each into the frame sender's channel, if its client has that channel.

  - `hello_of`: what goes out are hellos of the node's own interfaces.
  - `sendq_empty`: through a client without a channel nothing goes out.
  - `hello_queued`: through one with the channel, and with a timer that goes on, each
    interface's hello is queued again and again.
-/

import FabricRs.Network.Liveness

namespace FabricRs.Network

open State UserSpace SendReceive
open Lts (Chan Behavior Enabled Unless Stable)
open Lts.Behavior (LeadsTo leads_of_fair leads_of_often leads_of_unless)
open Function (update)

variable {interfaces : Interfaces} {id : U32} {srClient : SendReceive.Client} {lpmTrie : LpmTrie}

/-- The hello of an interface of the node. -/
def OwnHello (interfaces : Interfaces) (id : U32) (f : Frame) : Prop :=
  ∃ i, interfaces.get f.ifidx = some i ∧ discoHello id i = some f

/-- A tick's frames: the hello of each interface, once. -/
theorem mem_tick {l : List (U32 × Interface)} (hl : interfaces.map.Lists l) {f : Frame} :
    f ∈ l.filterMap (fun e => discoHello id e.2) ↔ OwnHello interfaces id f := by
  have hix : ∀ {k i}, interfaces.get k = some i → discoHello id i = some f → f.ifidx = k := by
    intro k i hi hf
    rw [discoHello_eq, Option.some.injEq] at hf
    rw [← hf]
    exact interfaces.keyed k i hi
  rw [List.mem_filterMap]
  refine ⟨fun ⟨e, he, hf⟩ => ?_, fun ⟨i, hi, hf⟩ => ⟨_, hl.mem.mpr hi, hf⟩⟩
  have hi : interfaces.get e.1 = some e.2 := hl.mem.mp he
  exact ⟨e.2, by rw [hix hi hf]; exact hi, hf⟩

/-- What goes on in the sending half: a tick, a hello dropped, queued or sent. -/
inductive Sends (interfaces : Interfaces) (id : U32) (srClient : SendReceive.Client) : Task → Cause → Net → Net → Prop
  | none {τ c s t} : t.hellos = s.hellos → t.sendq = s.sendq → Sends interfaces id srClient τ c s t
  | tick {s t} (l : List (U32 × Interface)) : interfaces.map.Lists l → s.hellos = [] →
      t.hellos = l.filterMap (fun e => discoHello id e.2) → t.sendq = s.sendq →
      Sends interfaces id srClient .discoSender .event s t
  | drop {s t} (f : Frame) : s.hellos = f :: t.hellos → srClient.senderChannel = none → t.sendq = s.sendq →
      Sends interfaces id srClient .discoSender .own s t
  | hello {s t} (f : Frame) : s.hellos = f :: t.hellos → srClient.senderChannel = some .mk →
      t.sendq.buf = s.sendq.buf ++ [f] → Sends interfaces id srClient .discoSender .own s t
  | send {s t} (f : Frame) : s.sendq.buf = f :: t.sendq.buf → t.hellos = s.hellos →
      Sends interfaces id srClient .frameSender .own s t

theorem step_sends {τ : Task} {c : Cause} {s t : Net} (h : Step interfaces id srClient lpmTrie τ c s t) :
    Sends interfaces id srClient τ c s t := by
  cases h with
  | tick l he hl => exact .tick l hl he rfl rfl
  | drop f rest hf hc => exact .drop f hf hc rfl
  | hello f rest q' hf hc hq => exact .hello f hf hc (Chan.send_eq_some.mp hq)
  | send f q' hq => exact .send f (Chan.recv_eq_some.mp hq) rfl
  | _ => exact .none rfl rfl

theorem tick_has {s t : Net} (h : Step interfaces id srClient lpmTrie .discoSender .event s t) {f : Frame}
    (hf : OwnHello interfaces id f) : f ∈ t.hellos := by
  cases h with
  | tick l _ hl => exact (mem_tick hl).mpr hf

theorem hello_of {s : Net} (h : Reach interfaces id srClient lpmTrie s) :
    ∀ f ∈ s.hellos ++ s.sendq.buf, OwnHello interfaces id f := by
  refine h.inv (P := fun s => ∀ f ∈ s.hellos ++ s.sendq.buf, OwnHello interfaces id f) ?_ ?_
  · intro s hs
    rw [hs]
    intro f hf
    cases hf
  · intro s t _ ih ⟨τ, c, hs⟩ f hf
    cases step_sends hs with
    | none h1 h2 => exact ih f (by rw [← h1, ← h2]; exact hf)
    | tick l hl he h1 h2 =>
      rw [h1, h2] at hf
      rcases List.mem_append.mp hf with hf | hf
      · exact (mem_tick hl).mp hf
      · exact ih f (List.mem_append_right _ hf)
    | drop g hg _ h2 =>
      refine ih f ?_
      rw [hg, ← h2]
      exact List.mem_cons_of_mem _ hf
    | hello g hg _ h2 =>
      refine ih f ?_
      rw [h2] at hf
      rw [hg]
      simp only [List.mem_append, List.mem_cons] at hf ⊢
      tauto
    | send g hg h1 =>
      refine ih f ?_
      rw [h1] at hf
      rw [hg]
      rcases List.mem_append.mp hf with hf | hf
      · exact List.mem_append_left _ hf
      · exact List.mem_append_right _ (List.mem_cons_of_mem _ hf)

theorem sendq_empty {s : Net} (h : Reach interfaces id srClient lpmTrie s) (hc : srClient.senderChannel = none) :
    s.sendq.buf = [] := by
  refine h.inv (P := fun s => s.sendq.buf = []) (fun s hs => by rw [hs]; rfl) fun s t _ ih ⟨τ, c, hs⟩ => ?_
  cases step_sends hs with
  | none _ h2 => rw [h2, ih]
  | tick _ _ _ _ h2 => rw [h2, ih]
  | drop _ _ _ h2 => rw [h2, ih]
  | hello _ _ hc' _ => rw [hc] at hc'; cases hc'
  | send f hf _ => rw [ih] at hf; cases hf

/-! ## Tick after tick -/

section

variable {b : Trace interfaces id srClient lpmTrie} (hframe : b.Fair (Own interfaces id srClient lpmTrie .frameSender))

include hframe

theorem sendq_room : b.Often fun s => s.sendq.buf.length < chanCap := by
  refine (leads_of_fair hframe (fun s t _ _ _ => (em _).symm) (fun s _ hfull => ?_) fun s t _ _ hs => ?_).often
  · obtain ⟨f, q', hq⟩ := s.sendq.exists_recv fun e => hfull (by rw [e]; decide)
    exact ⟨_, .send f q' hq⟩
  · cases hs with
    | send f q' hq =>
      have hlen : s.sendq.buf.length = q'.buf.length + 1 := by rw [Chan.recv_eq_some.mp hq, List.length_cons]
      have hcap := s.sendq.le
      show q'.buf.length < chanCap
      omega

variable (hdisco : b.Fair (Own interfaces id srClient lpmTrie .discoSender))

include hdisco

/-- The disco sender gets rid of the hello in front. -/
theorem front_leaves (f : Frame) (rest : List Frame) : b.LeadsTo (fun s => s.hellos = f :: rest) fun s =>
    s.hellos = rest ∧ (srClient.senderChannel = some .mk → f ∈ s.sendq.buf) := by
  have hown : ∀ s t, Steps interfaces id srClient lpmTrie s t → s.hellos = f :: rest →
      t.hellos = f :: rest ∨ (t.hellos = rest ∧ (srClient.senderChannel = some .mk → f ∈ t.sendq.buf)) := by
    intro s t ⟨τ, c, hs⟩ hf
    cases step_sends hs with
    | none h1 _ => exact Or.inl (h1.trans hf)
    | tick _ _ he _ _ => rw [hf] at he; cases he
    | drop g hg hc _ =>
      rw [hf, List.cons.injEq] at hg
      exact Or.inr ⟨hg.2.symm, fun h => by rw [hc] at h; cases h⟩
    | hello g hg _ hq =>
      rw [hf, List.cons.injEq] at hg
      exact Or.inr ⟨hg.2.symm, fun _ => by rw [hq, hg.1]; simp⟩
    | send _ _ h1 => exact Or.inl (h1.trans hf)
  refine leads_of_often hdisco (sendq_room hframe) (fun s t _ hf hs => hown s t hs hf) (fun s _ hf hroom => ?_)
    fun s t _ hf hs => (hown s t ⟨_, _, hs⟩ hf).resolve_left fun h => ?_
  · cases hc : srClient.senderChannel with
    | none => exact ⟨_, .drop f rest hf hc⟩
    | some x =>
      obtain ⟨q', hq⟩ := s.sendq.exists_send f hroom
      exact ⟨_, .hello f rest q' hf hc hq⟩
  · cases hs with
    | drop g l hg _ =>
      rw [hf, List.cons.injEq] at hg
      exact List.cons_ne_self f rest (h.symm.trans hg.2.symm)
    | hello g l q' hg _ _ =>
      rw [hf, List.cons.injEq] at hg
      exact List.cons_ne_self f rest (h.symm.trans hg.2.symm)

/-- Each round of hellos ends. -/
theorem round_ends : b.Often fun s => s.hellos = [] := by
  refine (LeadsTo.rank (fun s => s.hellos.length) fun k n ⟨hne, hk⟩ => ?_).often
  obtain ⟨f, rest, hf⟩ := List.exists_cons_of_ne_nil hne
  obtain ⟨m, hm, hrest, -⟩ := front_leaves hframe hdisco f rest n hf
  rw [hf, List.length_cons] at hk
  refine ⟨m, hm, ?_⟩
  by_cases he : (b.state m).hellos = []
  · exact Or.inr he
  · exact Or.inl ⟨he, by rw [hrest]; omega⟩

/-- While the timer goes on, the hello of each interface is queued again and again, if the
    disco sender's client has the channel. -/
theorem hello_queued (htick : b.Fair (Step interfaces id srClient lpmTrie .discoSender .event))
    (hc : srClient.senderChannel = some .mk) {f : Frame} (hf : OwnHello interfaces id f) :
    b.Often fun s => f ∈ s.sendq.buf := by
  have htaken := htick fun n => by
    obtain ⟨m, hm, he⟩ := round_ends hframe hdisco n
    obtain ⟨l, hl⟩ := interfaces.map.exists_lists
    exact ⟨m, hm, _, .tick l he hl⟩
  have hleft : ∀ l, b.LeadsTo (fun s => s.hellos = l ∧ f ∈ l) fun s => f ∈ s.sendq.buf := by
    intro l
    induction l with
    | nil => exact fun n ⟨_, h⟩ => absurd h List.not_mem_nil
    | cons g l ih =>
      intro n ⟨hl, hmem⟩
      obtain ⟨m, hm, hrest, hq⟩ := front_leaves hframe hdisco g l n hl
      rcases List.mem_cons.mp hmem with rfl | hmem
      · exact ⟨m, hm, hq hc⟩
      · obtain ⟨j, hj, hin⟩ := ih m ⟨hrest, hmem⟩
        exact ⟨j, hm.trans hj, hin⟩
  intro n
  obtain ⟨m, hm, hs⟩ := htaken n
  obtain ⟨j, hj, hq⟩ := hleft _ (m + 1) ⟨rfl, tick_has hs hf⟩
  exact ⟨j, by omega, hq⟩

end

end FabricRs.Network

/-
  FabricRs.Lib.MailboxLive — every call returns (see `FabricRs.Lib.Mailbox`).

  The behaviors are those of the mailbox's tasks, each fair: the server, the relay, and a
  client while it is in a call (what it does between its calls is its own affair).

  - `room`: the mailbox has room again and again, so every queued request is served
    (`served_of`), the relay is idle again and again (`relay_idle`) and its own mailbox
    has room again and again (`relay_room`).
  - `idle_of`: a client in a call comes back from it, directly or through the relay. A
    client that calls directly does not need the relay to be fair.
-/

import FabricRs.Lib.Liveness
import FabricRs.Lib.MailboxProofs

namespace FabricRs.Mailbox

open Lts (Chan Behavior Enabled Unless Stable)
open Lts.Behavior (LeadsTo leads_of_fair leads_of_often leads_of_unless)
open Function (update)

variable {σ Call Rep L : Type} {cap rcap : Nat}
variable {V : Server σ Call Rep} {P : Prog Call Rep L}

variable (V P) in
abbrev Steps (s t : St σ Call Rep L cap rcap) : Prop := ∃ a, Step V P a s t

abbrev Trace (V : Server σ Call Rep) (P : Prog Call Rep L) (cap rcap : Nat) : Type :=
  Behavior (S := St σ Call Rep L cap rcap) (· = init V P) (Steps V P)

variable (V P) in
/-- What a task that is in the middle of something does. -/
def Acts : Agent → St σ Call Rep L cap rcap → St σ Call Rep L cap rcap → Prop
  | .client c, s, t => s.pc c ≠ .idle ∧ Step V P (.client c) s t
  | .server, s, t => Step V P .server s t
  | .relay, s, t => Step V P .relay s t

/-! ## One step -/

section Steps

variable {a : Agent} {s t : St σ Call Rep L cap rcap}

/-- Requests are queued behind those that are. -/
theorem step_ord (h : Step V P a s t) : ord s <+: ord t := by
  suffices h : ∃ l, ord t = ord s ++ l from h.imp fun l e => e.symm
  cases h with
  | push c r q' _ _ _ hq => exact ⟨[r], ord_send hq rfl⟩
  | post c r q' _ _ _ hq => exact ⟨[r], ord_send hq rfl⟩
  | forward r r' q' _ hq => exact ⟨[r'], ord_send hq rfl⟩
  | serve r q' u v hq _ => exact ⟨[], (ord_serve hq rfl).trans (List.append_nil _).symm⟩
  | _ => exact ⟨[], (List.append_nil _).symm⟩

theorem step_log (h : Step V P a s t) : s.log <+: t.log := by
  cases h with
  | serve r q' u v hq _ => exact List.prefix_append _ _
  | _ => exact List.prefix_refl _

theorem step_hist_mono (h : Step V P a s t) : s.hist <+: t.hist := by
  cases h with
  | begin c call _ _ _ => exact List.prefix_append _ _
  | post c r q' _ _ _ _ => exact List.prefix_append _ _
  | recv c r v _ _ => exact List.prefix_append _ _
  | _ => exact List.prefix_refl _

/-- An answer stays on its one-shot. -/
theorem step_one (h : Step V P a s t) {i : Nat} (hi : s.one i ≠ none) : t.one i ≠ none := by
  have hup : ∀ j (v : Rep), update s.one j (some v) i ≠ none := by
    intro j v e
    rcases Lts.update_cases e with ⟨-, h⟩ | ⟨-, h⟩
    · cases h
    · exact hi h
  cases h with
  | serve r q' u v hq _ =>
    cases v with
    | none => exact hi
    | some v => exact hup _ v
  | answer r r' v _ _ => exact hup _ v
  | _ => exact hi

/-- Only its own steps move a client. -/
theorem step_pc (h : Step V P a s t) (c : Nat) : t.pc c = s.pc c ∨ a = .client c := by
  have hup : ∀ d p, update s.pc d p c = s.pc c ∨ Agent.client d = .client c := by
    intro d p
    by_cases e : c = d
    · exact Or.inr (by rw [e])
    · exact Or.inl (Function.update_of_ne e _ _)
  cases h with
  | begin d _ _ _ _ => exact hup d _
  | push d _ _ _ _ _ _ => exact hup d _
  | post d _ _ _ _ _ _ => exact hup d _
  | ask d _ _ _ _ _ => exact hup d _
  | recv d _ _ _ _ => exact hup d _
  | _ => exact Or.inl rfl

theorem step_loc (h : Step V P a s t) (c : Nat) : t.loc c = s.loc c ∨ a = .client c := by
  have hup : ∀ d l, update s.loc d l c = s.loc c ∨ Agent.client d = .client c := by
    intro d l
    by_cases e : c = d
    · exact Or.inr (by rw [e])
    · exact Or.inl (Function.update_of_ne e _ _)
  cases h with
  | tau d _ _ _ => exact hup d _
  | post d _ _ _ _ _ _ => exact hup d _
  | recv d _ _ _ _ => exact hup d _
  | _ => exact Or.inl rfl

theorem step_sending {c : Nat} {r : Req Call} (h : Step V P (.client c) s t) (hpc : s.pc c = .sending r) :
    t.pc c = .waiting r ∨ t.pc c = .idle := by
  cases h with
  | tau _ _ hp _ => rw [hpc] at hp; cases hp
  | begin _ _ hp _ _ => rw [hpc] at hp; cases hp
  | push _ r' _ hp _ _ _ =>
    rw [hpc] at hp
    cases hp
    exact Or.inl (Function.update_self _ _ _)
  | post _ r' _ hp _ _ _ => exact Or.inr (Function.update_self _ _ _)
  | ask _ r' _ hp _ _ =>
    rw [hpc] at hp
    cases hp
    exact Or.inl (Function.update_self _ _ _)
  | recv _ r' _ hp _ => rw [hpc] at hp; cases hp

theorem step_waiting {c : Nat} {r : Req Call} (h : Step V P (.client c) s t) (hpc : s.pc c = .waiting r) :
    t.pc c = .idle := by
  cases h with
  | recv _ r' _ hp _ => exact Function.update_self _ _ _
  | tau _ _ hp _ => rw [hpc] at hp; cases hp
  | begin _ _ hp _ _ => rw [hpc] at hp; cases hp
  | push _ r' _ hp _ _ _ => rw [hpc] at hp; cases hp
  | post _ r' _ hp _ _ _ => rw [hpc] at hp; cases hp
  | ask _ r' _ hp _ _ => rw [hpc] at hp; cases hp

/-- Only its own steps move the relay. -/
theorem step_relay (h : Step V P a s t) : t.relay = s.relay ∨ a = .relay := by
  cases h with
  | take _ _ _ _ => exact Or.inr rfl
  | forward _ _ _ _ _ => exact Or.inr rfl
  | answer _ _ _ _ _ => exact Or.inr rfl
  | _ => exact Or.inl rfl

theorem relay_sending {r r' : Req Call} (h : Step V P .relay s t) (hr : s.relay = .sending r r') :
    t.relay = .waiting r r' := by
  cases h with
  | take _ _ h _ => rw [hr] at h; cases h
  | forward _ _ _ h _ =>
    rw [hr] at h
    cases h
    rfl
  | answer _ _ _ h _ => rw [hr] at h; cases h

theorem relay_waiting {r r' : Req Call} (h : Step V P .relay s t) (hr : s.relay = .waiting r r') :
    t.relay = .idle ∧ t.one r.tx ≠ none := by
  cases h with
  | take _ _ h _ => rw [hr] at h; cases h
  | forward _ _ _ h _ => rw [hr] at h; cases h
  | answer _ _ v h _ =>
    rw [hr] at h
    cases h
    exact ⟨rfl, by simp⟩

/-- The idle relay takes the head of its mailbox. -/
theorem relay_take {x : Req Call} {l : List (Req Call)} (h : Step V P .relay s t) (hr : s.relay = .idle)
    (hq : s.rq.buf = x :: l) : t.rq.buf = l ∧ ∃ r', t.relay = .sending x r' := by
  cases h with
  | take r q' _ hrecv =>
    rw [Chan.recv_eq_some, hq] at hrecv
    cases hrecv
    exact ⟨rfl, _, rfl⟩
  | forward _ _ _ h _ => rw [hr] at h; cases h
  | answer _ _ _ h _ => rw [hr] at h; cases h

/-- The relay's mailbox loses its head to the relay, or a client queues behind it. -/
theorem step_rq (h : Step V P a s t) : s.rq.buf <+: t.rq.buf ∨ (a = .relay ∧ s.relay = .idle) := by
  cases h with
  | ask c r q' _ _ hq => exact Or.inl ⟨[r], (Chan.send_eq_some.mp hq).symm⟩
  | take _ _ hr _ => exact Or.inr ⟨rfl, hr⟩
  | _ => exact Or.inl (List.prefix_refl _)

/-- A new entry of the log is the server's step. -/
theorem step_served (h : Step V P a s t) {x : Req Call × Option Rep} (hx : x ∈ t.log) (hn : x ∉ s.log) :
    V.serve s.srv x.1.call t.srv x.2 := by
  cases h with
  | serve r q' u v hq hs =>
    rcases List.mem_append.mp hx with hx | hx
    · exact absurd hx hn
    · rw [List.mem_singleton.mp hx]
      exact hs
  | _ => exact absurd hx hn

end Steps

/-! ## Along a behavior -/

section Along

variable (b : Trace V P cap rcap) {n m : Nat} (hm : n ≤ m)

include hm

theorem ord_mono : ord (b.state n) <+: ord (b.state m) :=
  Lts.Behavior.stable (P := fun s => ord (b.state n) <+: ord s) (fun _ _ _ h ⟨_, hs⟩ => h.trans (step_ord hs)) hm
    (List.prefix_refl _)

theorem log_mono : (b.state n).log <+: (b.state m).log :=
  Lts.Behavior.stable (P := fun s : St σ Call Rep L cap rcap => (b.state n).log <+: s.log)
    (fun _ _ _ h ⟨_, hs⟩ => h.trans (step_log hs)) hm (List.prefix_refl _)

theorem hist_mono : (b.state n).hist <+: (b.state m).hist :=
  Lts.Behavior.stable (P := fun s : St σ Call Rep L cap rcap => (b.state n).hist <+: s.hist)
    (fun _ _ _ h ⟨_, hs⟩ => h.trans (step_hist_mono hs)) hm (List.prefix_refl _)

end Along

/-- A call that was served is served only once. -/
theorem served_once {s : St σ Call Rep L cap rcap} (h : Reach V P s) {x : Req Call × Option Rep} (hx : x ∈ s.log) :
    s.log.filter (fun y => y.1.op = x.1.op) = [x] := by
  have hnd := (hold h).nodup
  obtain ⟨l1, l2, hlog⟩ := List.append_of_mem hx
  rw [ops, ord, hlog, List.map_append, List.map_append, List.map_append, List.map_cons, List.map_cons] at hnd
  obtain ⟨hlog', -, -⟩ := List.nodup_append.mp hnd
  obtain ⟨-, hcons, hdisj⟩ := List.nodup_append.mp hlog'
  have h1 : ∀ y ∈ l1, ¬ y.1.op = x.1.op := fun y hy =>
    hdisj _ (List.mem_map_of_mem (List.mem_map_of_mem hy)) _ List.mem_cons_self
  have h2 : ∀ y ∈ l2, ¬ y.1.op = x.1.op := fun y hy he =>
    (List.nodup_cons.mp hcons).1 (he ▸ List.mem_map_of_mem (List.mem_map_of_mem hy))
  rw [hlog, List.filter_append, List.filter_cons_of_pos (by simp), List.filter_eq_nil_iff.mpr (by simpa using h1),
    List.filter_eq_nil_iff.mpr (by simpa using h2)]
  rfl

/-- A call that had not begun at a time and is answered later was served in between. -/
theorem served_when (b : Trace V P cap rcap) {n m op : Nat} {v : Option Rep} (hnew : (b.state n).issued.length ≤ op)
    (h : Answered (b.state m).log op v) :
    ∃ i x, n ≤ i ∧ i < m ∧ x ∈ (b.state m).log ∧ x.1.op = op ∧
      V.serve (b.state i).srv x.1.call (b.state (i + 1)).srv v := by
  obtain ⟨x, hx, rfl, rfl⟩ := h
  suffices hi : ∃ i, n ≤ i ∧ i < m ∧ x ∉ (b.state i).log ∧ x ∈ (b.state (i + 1)).log by
    obtain ⟨i, hni, him, hno, hyes⟩ := hi
    refine ⟨i, x, hni, him, hx, rfl, ?_⟩
    rcases b.next i with ⟨a, hs⟩ | hs
    · exact step_served hs hyes hno
    · rw [hs] at hyes
      exact absurd hyes hno
  have hstart : x ∉ (b.state n).log := fun hx =>
    absurd ((ids (b.reach n)).op_lt ((ids (b.reach n)).log x hx)) (Nat.not_lt.mpr hnew)
  have hnm : n ≤ m := Nat.le_of_not_le fun hmn => hstart ((log_mono b hmn).mem hx)
  induction m, hnm using Nat.le_induction with
  | base => exact absurd hx hstart
  | succ m hm ih =>
    by_cases hxm : x ∈ (b.state m).log
    · obtain ⟨i, hni, him, hi⟩ := ih hxm
      exact ⟨i, hni, him.trans (Nat.lt_succ_self m), hi⟩
    · exact ⟨m, hm, Nat.lt_succ_self m, hxm, hx⟩

/-! ## The mailbox -/

section Server

variable {b : Trace V P cap rcap}

theorem room (hcap : 0 < cap) (hsrv : b.Fair (Acts V P .server)) : b.Often fun s => s.q.buf.length < cap := by
  refine LeadsTo.often (leads_of_fair hsrv (fun s t _ _ _ => (em _).symm) (fun s _ hfull => ?_) fun s t _ hfull hs => ?_)
  · refine exists_serve fun e => hfull ?_
    rw [e]
    exact hcap
  · cases hs with
    | serve r q' u v hq _ =>
      have hle := s.q.le
      rw [Chan.recv_eq_some.mp hq, List.length_cons] at hle
      exact hle

theorem ord_stable {i : Nat} : Stable (· = init V P) (Steps V P) fun s : St σ Call Rep L cap rcap => i < (ord s).length :=
  fun _ _ _ hi ⟨_, hs⟩ => Nat.lt_of_lt_of_le hi (step_ord hs).length_le

/-- The request queued at place `i` is served. -/
theorem served (hsrv : b.Fair (Acts V P .server)) (i : Nat) :
    b.LeadsTo (fun s => i < (ord s).length) fun s => i < s.log.length := by
  refine LeadsTo.count (fun s => s.log.length) i ord_stable fun k hk => ?_
  refine leads_of_fair hsrv (fun s t hr ⟨hi, hc⟩ ⟨a, hs⟩ => ?_) (fun s _ ⟨hi, hc⟩ => ?_) fun s t _ ⟨_, hc⟩ hs => ?_
  · rcases Nat.eq_or_lt_of_le (step_log hs).length_le with he | hlt
    · exact Or.inl ⟨ord_stable s t hr hi ⟨a, hs⟩, he ▸ hc⟩
    · exact Or.inr (hc ▸ hlt)
  · refine exists_serve fun e => ?_
    simp only [ord, e, List.append_nil, List.length_map] at hi
    omega
  · cases hs with
    | serve r q' u v hq _ =>
      show k < (s.log ++ [(r, v)]).length
      rw [List.length_append, hc]
      exact Nat.lt_succ_self k

/-- A queued request is served. -/
theorem served_of (hsrv : b.Fair (Acts V P .server)) (r : Req Call) :
    b.LeadsTo (fun s => r ∈ ord s) fun s => r ∈ s.log.map (·.1) := by
  intro n hr
  obtain ⟨i, hi, rfl⟩ := List.getElem_of_mem hr
  obtain ⟨m, hm, hlog⟩ := served hsrv i n hi
  refine ⟨m, hm, ?_⟩
  have hpre := ord_mono b hm
  have hlen : i < ((b.state m).log.map (·.1)).length := by rwa [List.length_map]
  have hget : (ord (b.state n))[i] = ((b.state m).log.map (·.1))[i] := by
    rw [hpre.getElem hi]
    exact List.getElem_append_left hlen
  rw [hget]
  exact List.getElem_mem hlen

/-- A served request is not in the mailbox any more. -/
theorem not_queued {s : St σ Call Rep L cap rcap} (h : Reach V P s) {r : Req Call} (hr : r ∈ s.log.map (·.1)) :
    r ∉ s.q.buf := by
  intro hq
  have hnd := List.Nodup.of_map _ (hold h).nodup
  exact (List.nodup_append.mp hnd).2.2 r hr r hq rfl

end Server

/-! ## The relay -/

section Relay

variable {b : Trace V P cap rcap} (hcap : 0 < cap) (hsrv : b.Fair (Acts V P .server)) (hrel : b.Fair (Acts V P .relay))

include hsrv hrel

/-- The relay's request is answered, and it passes the answer on. -/
theorem relay_answers (r r' : Req Call) :
    b.LeadsTo (fun s => s.relay = .waiting r r') fun s => s.relay = .idle ∧ s.one r.tx ≠ none := by
  have hu : Unless (· = init V P) (Steps V P)
      (fun s : St σ Call Rep L cap rcap => s.relay = .waiting r r') fun s => s.relay = .idle ∧ s.one r.tx ≠ none := by
    intro s t _ hr ⟨a, hs⟩
    rcases step_relay hs with he | rfl
    · exact Or.inl (he.trans hr)
    · exact Or.inr (relay_waiting hs hr)
  -- its request is served, or it has gone on
  have hone : b.LeadsTo (fun s => s.relay = .waiting r r') fun s =>
      (s.relay = .waiting r r' ∧ s.one r'.tx ≠ none) ∨ (s.relay = .idle ∧ s.one r.tx ≠ none) := by
    intro n hr
    rcases (hold (b.reach n)).relayWait r r' hr with hq | ⟨v, hv⟩
    · obtain ⟨m, hm, hlog⟩ := served_of hsrv r' n (List.mem_append_right _ hq)
      rcases Lts.Behavior.lasts hu hm hr with hr' | ⟨k, hk, -, hq'⟩
      · rcases (hold (b.reach m)).relayWait r r' hr' with hq | ⟨v, hv⟩
        · exact absurd hq (not_queued (b.reach m) hlog)
        · exact ⟨m, hm, Or.inl ⟨hr', by rw [hv]; intro e; cases e⟩⟩
      · exact ⟨k, hk, Or.inr hq'⟩
    · exact ⟨n, Nat.le_refl n, Or.inl ⟨hr, by rw [hv]; intro e; cases e⟩⟩
  refine hone.trans_or (leads_of_fair hrel (fun s t hs ⟨hr, h1⟩ ht => ?_) (fun s _ ⟨hr, h1⟩ => ?_)
    fun s t _ ⟨hr, _⟩ hs => relay_waiting hs hr)
  · obtain ⟨a, ha⟩ := ht
    exact (hu s t hs hr ⟨a, ha⟩).imp_left fun h => ⟨h, step_one ha h1⟩
  · obtain ⟨v, hv⟩ := Option.ne_none_iff_exists'.mp h1
    exact ⟨_, .answer r r' v hr hv⟩

include hcap

/-- The relay sends the request it took. -/
theorem relay_sends (r r' : Req Call) :
    b.LeadsTo (fun s => s.relay = .sending r r') fun s => s.relay = .waiting r r' := by
  refine leads_of_often hrel (room hcap hsrv) (fun s t _ hr ⟨a, hs⟩ => ?_) (fun s _ hr hroom => ?_)
    fun s t _ hr hs => relay_sending hs hr
  · rcases step_relay hs with he | rfl
    · exact Or.inl (he.trans hr)
    · exact Or.inr (relay_sending hs hr)
  · obtain ⟨q', hq⟩ := s.q.exists_send r' hroom
    exact ⟨_, .forward r r' q' hr hq⟩

theorem relay_idle : b.Often fun s => s.relay = .idle := by
  refine LeadsTo.often fun n hn => ?_
  have hwait : ∀ r r', b.LeadsTo (fun s => s.relay = .waiting r r') fun s => s.relay = .idle := fun r r' =>
    (relay_answers hsrv hrel r r').trans (.of_imp fun _ _ h => h.1)
  cases hr : (b.state n).relay with
  | idle => exact absurd hr hn
  | sending r r' => exact ((relay_sends hcap hsrv hrel r r').trans (hwait r r')) n hr
  | waiting r r' => exact hwait r r' n hr

/-- The idle relay takes what its mailbox holds. -/
theorem relay_room (hrcap : 0 < rcap) : b.Often fun s => s.rq.buf.length < rcap := by
  have htake : ∀ s t : St σ Call Rep L cap rcap, ¬ s.rq.buf.length < rcap → s.relay = .idle → Step V P .relay s t →
      t.rq.buf.length < rcap := by
    intro s t hfull hr hs
    have hle := s.rq.le
    cases hq : s.rq.buf with
    | nil => exact absurd (by rw [hq]; exact hrcap) hfull
    | cons x l =>
      rw [(relay_take hs hr hq).1]
      rw [hq, List.length_cons] at hle
      exact hle
  have hidle := leads_of_unless (b := b) (P := fun s => ¬ s.rq.buf.length < rcap) (Q := fun s => s.rq.buf.length < rcap)
    (fun s t _ _ _ => (em _).symm) (relay_idle hcap hsrv hrel)
  refine LeadsTo.often (hidle.trans_or (leads_of_fair hrel (fun s t _ ⟨hfull, hr⟩ ⟨a, hs⟩ => ?_)
    (fun s _ ⟨hfull, hr⟩ => ?_) fun s t _ ⟨hfull, hr⟩ hs => htake s t hfull hr hs))
  · rcases step_relay hs with he | rfl
    · rcases step_rq hs with hpre | ⟨rfl, -⟩
      · exact Or.inl ⟨fun hlt => hfull (Nat.lt_of_le_of_lt hpre.length_le hlt), he.trans hr⟩
      · exact Or.inr (htake s t hfull hr hs)
    · exact Or.inr (htake s t hfull hr hs)
  · obtain ⟨r, q', hq⟩ := s.rq.exists_recv fun e => hfull (by rw [e]; exact hrcap)
    exact ⟨_, .take r q' hr hq⟩

/-- A request of the relay's mailbox is taken: those before it are, one by one. -/
theorem relay_takes (r : Req Call) :
    b.LeadsTo (fun s => True ∧ r ∈ s.rq.buf) fun s => ∃ r', s.relay = .sending r r' := by
  refine LeadsTo.queue fun x l => ?_
  have htake : ∀ s t : St σ Call Rep L cap rcap, Step V P .relay s t → s.relay = .idle → x :: l <+: s.rq.buf →
      (True ∧ l <+: t.rq.buf) ∧ (x = r → ∃ r', t.relay = .sending r r') := by
    intro s t hs hr ⟨l', hq⟩
    obtain ⟨h1, h2⟩ := relay_take hs hr hq.symm
    exact ⟨⟨trivial, l', h1.symm⟩, fun e => e ▸ h2⟩
  have hu : Unless (· = init V P) (Steps V P) (fun s : St σ Call Rep L cap rcap => True ∧ x :: l <+: s.rq.buf) fun s =>
      (True ∧ l <+: s.rq.buf) ∧ (x = r → ∃ r', s.relay = .sending r r') := by
    intro s t _ ⟨_, hq⟩ ⟨a, hs⟩
    rcases step_rq hs with hpre | ⟨rfl, hr⟩
    · exact Or.inl ⟨trivial, hq.trans hpre⟩
    · exact Or.inr (htake s t hs hr hq)
  refine (leads_of_unless hu (relay_idle hcap hsrv hrel)).trans_or (leads_of_fair hrel (fun s t hr ⟨hp, hi⟩ ⟨a, hs⟩ => ?_)
    (fun s _ ⟨⟨_, l', hq⟩, hi⟩ => ?_) fun s t _ ⟨hp, hi⟩ hs => htake s t hs hi hp.2)
  · rcases step_relay hs with he | rfl
    · exact (hu s t hr hp ⟨a, hs⟩).imp_left fun h => ⟨h, he.trans hi⟩
    · exact Or.inr (htake s t hs hi hp.2)
  · obtain ⟨y, q', hy⟩ := s.rq.exists_recv (by rw [← hq]; simp)
    exact ⟨_, .take y q' hi hy⟩

/-- A request in the relay's hand is answered. -/
theorem relayed (r : Req Call) : b.LeadsTo (fun s => InRelay s r) fun s => s.one r.tx ≠ none := by
  have hwait : ∀ r', b.LeadsTo (fun s => s.relay = .waiting r r') fun s => s.one r.tx ≠ none := fun r' =>
    (relay_answers hsrv hrel r r').trans (.of_imp fun _ _ h => h.2)
  have hsend : ∀ r', b.LeadsTo (fun s => s.relay = .sending r r') fun s => s.one r.tx ≠ none := fun r' =>
    (relay_sends hcap hsrv hrel r r').trans (hwait r')
  intro n hr
  rcases hr with hr | ⟨r', hr | hr⟩
  · obtain ⟨m, hm, r', hr'⟩ := relay_takes hcap hsrv hrel r n ⟨trivial, hr⟩
    obtain ⟨k, hk, hone⟩ := hsend r' m hr'
    exact ⟨k, hm.trans hk, hone⟩
  · exact hsend r' n hr
  · exact hwait r' n hr

end Relay

/-! ## The clients -/

section Clients

variable {b : Trace V P cap rcap} {c : Nat} (hcap : 0 < cap) (hsrv : b.Fair (Acts V P .server))
  (hrel : P.direct c = false → b.Fair (Acts V P .relay)) (hc : b.Fair (Acts V P (.client c)))

include hcap hsrv hrel hc

/-- A sending client finds room. -/
theorem sends (hrcap : 0 < rcap) (r : Req Call) :
    b.LeadsTo (fun s => s.pc c = .sending r) fun s => s.pc c = .waiting r ∨ s.pc c = .idle := by
  have hu : Unless (· = init V P) (Steps V P)
      (fun s : St σ Call Rep L cap rcap => s.pc c = .sending r) fun s => s.pc c = .waiting r ∨ s.pc c = .idle := by
    intro s t _ hpc ⟨a, hs⟩
    rcases step_pc hs c with he | rfl
    · exact Or.inl (he.trans hpc)
    · exact Or.inr (step_sending hs hpc)
  have hq : ∀ s t : St σ Call Rep L cap rcap, Reach V P s → s.pc c = .sending r → Acts V P (.client c) s t →
      t.pc c = .waiting r ∨ t.pc c = .idle := fun s t _ hpc hs => step_sending hs.2 hpc
  have hbusy : ∀ s : St σ Call Rep L cap rcap, s.pc c = .sending r → s.pc c ≠ .idle := fun s hpc e => by
    rw [hpc] at e
    cases e
  cases hd : P.direct c with
  | true =>
    refine leads_of_often hc (room hcap hsrv) hu (fun s _ hpc hroom => ?_) hq
    obtain ⟨q', hs⟩ := s.q.exists_send r hroom
    cases hw : V.wants r.call with
    | true => exact ⟨_, hbusy s hpc, .push c r q' hpc hd hw hs⟩
    | false => exact ⟨_, hbusy s hpc, .post c r q' hpc hd hw hs⟩
  | false =>
    refine leads_of_often hc (relay_room hcap hsrv (hrel hd) hrcap) hu (fun s _ hpc hroom => ?_) hq
    obtain ⟨q', hs⟩ := s.rq.exists_send r hroom
    exact ⟨_, hbusy s hpc, .ask c r q' hpc hd hs⟩

/-- A waiting client gets its answer. -/
theorem waits (r : Req Call) : b.LeadsTo (fun s => s.pc c = .waiting r) fun s => s.pc c = .idle := by
  have hu : Unless (· = init V P) (Steps V P)
      (fun s : St σ Call Rep L cap rcap => s.pc c = .waiting r) fun s => s.pc c = .idle := by
    intro s t _ hpc ⟨a, hs⟩
    rcases step_pc hs c with he | rfl
    · exact Or.inl (he.trans hpc)
    · exact Or.inr (step_waiting hs hpc)
  -- the answer comes, or the client has it already
  have hone : b.LeadsTo (fun s => s.pc c = .waiting r) fun s =>
      (s.pc c = .waiting r ∧ s.one r.tx ≠ none) ∨ s.pc c = .idle := by
    intro n hpc
    suffices h : ∃ m, n ≤ m ∧ ((b.state m).pc c = .waiting r → (b.state m).one r.tx ≠ none) by
      obtain ⟨m, hm, h⟩ := h
      rcases Lts.Behavior.lasts hu hm hpc with hpc' | ⟨k, hk, -, hq⟩
      · exact ⟨m, hm, Or.inl ⟨hpc', h hpc'⟩⟩
      · exact ⟨k, hk, Or.inr hq⟩
    rcases ((hold (b.reach n)).wait c r hpc).2 with ⟨hd, hq⟩ | ⟨hd, hr⟩ | ⟨v, hv⟩
    · obtain ⟨m, hm, hlog⟩ := served_of hsrv r n (List.mem_append_right _ hq)
      refine ⟨m, hm, fun hpc' => ?_⟩
      rcases ((hold (b.reach m)).wait c r hpc').2 with ⟨-, hq⟩ | ⟨hd', -⟩ | ⟨v, hv⟩
      · exact absurd hq (not_queued (b.reach m) hlog)
      · rw [hd] at hd'
        cases hd'
      · rw [hv]
        intro e
        cases e
    · obtain ⟨m, hm, h⟩ := relayed hcap hsrv (hrel hd) r n hr
      exact ⟨m, hm, fun _ => h⟩
    · exact ⟨n, Nat.le_refl n, fun _ => by rw [hv]; intro e; cases e⟩
  refine hone.trans_or (leads_of_fair hc (fun s t hs ⟨hpc, h1⟩ ⟨a, ha⟩ => ?_) (fun s _ ⟨hpc, h1⟩ => ?_)
    fun s t _ ⟨hpc, _⟩ hs => step_waiting hs.2 hpc)
  · exact (hu s t hs hpc ⟨a, ha⟩).imp_left fun h => ⟨h, step_one ha h1⟩
  · obtain ⟨v, hv⟩ := Option.ne_none_iff_exists'.mp h1
    have hbusy : s.pc c ≠ .idle := by rw [hpc]; intro e; cases e
    exact ⟨_, hbusy, .recv c r v hpc hv⟩

/-- A client comes back from its call. -/
theorem idle_of (hrcap : 0 < rcap) : b.LeadsTo (fun s => s.pc c ≠ .idle) fun s => s.pc c = .idle := by
  intro n hn
  cases hpc : (b.state n).pc c with
  | idle => exact absurd hpc hn
  | sending r =>
    exact ((sends hcap hsrv hrel hc hrcap r).trans_or (waits hcap hsrv hrel hc r)) n hpc
  | waiting r => exact waits hcap hsrv hrel hc r n hpc

/-- Every call that was begun returns, and the server has carried it out then or later,
    with the answer it returned. -/
theorem returns (hrcap : 0 < rcap) {n op : Nat} {call : Call} (hinv : .inv c op call ∈ (b.state n).hist) :
    ∃ m, n ≤ m ∧ ∃ r v, .ret c op v ∈ (b.state m).hist ∧ (r, v) ∈ (b.state m).log ∧ r.who = c ∧ r.op = op ∧
      r.call = call := by
  have hidle : ∃ m, n ≤ m ∧ (b.state m).pc c = .idle := by
    by_cases hpc : (b.state n).pc c = .idle
    · exact ⟨n, Nat.le_refl n, hpc⟩
    · exact idle_of hcap hsrv hrel hc hrcap n hpc
  obtain ⟨m, hm, hpc⟩ := hidle
  obtain ⟨v, hv⟩ : ∃ v, .ret c op v ∈ (b.state m).hist := by
    rcases (hist (b.reach m)).busy c op call ((hist_mono b hm).mem hinv) with h | ⟨r, hr, -⟩
    · exact h
    · simp only [hpc, reduceCtorEq, or_self] at hr
  obtain ⟨r, hr, -, hop, hw, hans⟩ := (hist (b.reach m)).ret c op v hv
  -- the request in the log: the one the call, or the relay for it, queued
  obtain ⟨k, hk, x, hx, hxop, hxv⟩ : ∃ k, m ≤ k ∧ ∃ x ∈ (b.state k).log, x.1.op = op ∧ x.2 = v := by
    cases hs : v.isSome with
    | true => exact ⟨m, Nat.le_refl m, hans hs⟩
    | false =>
      obtain ⟨k, hk, hlog⟩ := served_of hsrv r m hr
      obtain ⟨x, hx, rfl⟩ := List.mem_map.mp hlog
      have hx2 := (hist (b.reach k)).runs.wants _ (List.mem_map_of_mem hx)
      rw [← hw, hs, Option.isSome_eq_false_iff, Option.isNone_iff_eq_none] at hx2
      rw [Option.isSome_eq_false_iff, Option.isNone_iff_eq_none] at hs
      exact ⟨k, hk, x, hx, hop, by rw [hs]; exact hx2⟩
  have hknown := (hist (b.reach k)).inv c op call ((hist_mono b (hm.trans hk)).mem hinv)
  obtain ⟨hwho, hcall⟩ := (ids (b.reach k)).op_inj ((ids (b.reach k)).log x hx) hknown hxop
  exact ⟨k, hm.trans hk, x.1, v, (hist_mono b hk).mem hv, by rw [← hxv]; exact hx, hwho, hxop, hcall⟩

end Clients

end FabricRs.Mailbox

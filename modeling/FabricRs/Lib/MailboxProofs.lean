/-
  FabricRs.Lib.MailboxProofs — the mailbox's properties (see `FabricRs.Lib.Mailbox`).

  - `ids`: a request in a task's hand or in a queue is the one its one-shot names.
  - `hold`: who holds a call that is not queued yet, and where a waiting client's answer
    comes from (its request is queued, in the relay's hand, or answered).
  - `linearizable`: the order in which the requests were queued is a linearization of
    the history: it has every returned call once, extends the order in which one call
    returned before another began and each client's own, and the server run along it
    gives every answer a client got.
  - `client_progress`: a client in a call, or a task its answer depends on, can move.
  - `round`: a client on an empty mailbox can make a call and have it served at once.
-/

import Mathlib.Data.List.Induction
import Mathlib.Data.List.Nodup
import FabricRs.Lib.Mailbox

namespace FabricRs.Mailbox

open Lts (Chan update_cases)
open Function (update)

variable {σ Call Rep L : Type} {cap rcap : Nat}
variable {V : Server σ Call Rep} {P : Prog Call Rep L}

/-! ## One-shots name their request -/

theorem Known.mono {l : List (Req Call)} {x r : Req Call} (h : Known l r) : Known (l ++ [x]) r := by
  obtain ⟨hlt, -⟩ := List.getElem?_eq_some_iff.mp h
  rw [Known, List.getElem?_append_left hlt]
  exact h

theorem Known.new {l : List (Req Call)} {x : Req Call} (hx : x.tx = l.length) : Known (l ++ [x]) x := by
  rw [Known, hx]
  simp

theorem Known.cases {l : List (Req Call)} {x r : Req Call} (h : Known (l ++ [x]) r) : Known l r ∨ r = x := by
  rw [Known, List.getElem?_append] at h
  split at h
  · exact Or.inl h
  · right
    cases he : r.tx - l.length with
    | zero => rw [he] at h; simpa using h.symm
    | succ n => rw [he] at h; simp at h

theorem Known.lt {l : List (Req Call)} {r : Req Call} (h : Known l r) : r.tx < l.length :=
  (List.getElem?_eq_some_iff.mp h).1

theorem Known.tx_inj {l : List (Req Call)} {r r' : Req Call} (h : Known l r) (h' : Known l r')
    (e : r.tx = r'.tx) : r = r' := by
  rw [Known, e, h'] at h
  exact (Option.some.inj h).symm

structure Ids (s : St σ Call Rep L cap rcap) : Prop where
  /-- The caller's own request, which names the call. -/
  origin : ∀ r, Known s.issued r → Known s.issued ⟨r.who, r.op, r.call, r.op⟩
  pc : ∀ c r, s.pc c = .sending r ∨ s.pc c = .waiting r → Known s.issued r ∧ r.who = c ∧ r.op = r.tx
  q : ∀ r ∈ s.q.buf, Known s.issued r
  rq : ∀ r ∈ s.rq.buf, Known s.issued r
  relay : ∀ r r', s.relay = .sending r r' ∨ s.relay = .waiting r r' →
    Known s.issued r ∧ Known s.issued r' ∧ r'.who = r.who ∧ r'.op = r.op ∧ r'.call = r.call ∧ r'.tx ≠ r.tx
  log : ∀ x ∈ s.log, Known s.issued x.1

/-- Two requests for one call have the same caller. -/
theorem Ids.op_inj {s : St σ Call Rep L cap rcap} (hi : Ids s) {r r' : Req Call} (h : Known s.issued r)
    (h' : Known s.issued r') (e : r.op = r'.op) : r.who = r'.who ∧ r.call = r'.call := by
  have h1 := (hi.origin r h).tx_inj (hi.origin r' h') e
  injection h1 with hw _ hc
  exact ⟨hw, hc⟩

theorem Ids.op_lt {s : St σ Call Rep L cap rcap} (hi : Ids s) {r : Req Call} (h : Known s.issued r) :
    r.op < s.issued.length :=
  (hi.origin r h).lt

theorem Ids.ord {s : St σ Call Rep L cap rcap} (hi : Ids s) : ∀ r ∈ ord s, Known s.issued r := by
  intro r hr
  rcases List.mem_append.mp hr with hr | hr
  · obtain ⟨x, hx, rfl⟩ := List.mem_map.mp hr
    exact hi.log x hx
  · exact hi.q r hr

theorem ids_init : Ids (init V P : St σ Call Rep L cap rcap) := by
  refine ⟨?_, ?_, ?_, ?_, ?_, ?_⟩
  · intro r h; simp [Known, init] at h
  · intro c r h; simp [init] at h
  · intro r h; simp [init] at h
  · intro r h; simp [init] at h
  · intro r r' h; simp [init] at h
  · intro x h; simp [init] at h

/-- A step that moves one client, and issues nothing, keeps what every request names. -/
theorem Ids.move {s : St σ Call Rep L cap rcap} (hi : Ids s) {c : Nat} {p : Pc Call} {t : St σ Call Rep L cap rcap}
    (hpc : t.pc = update s.pc c p) (hp : ∀ r, p = .sending r ∨ p = .waiting r → s.pc c = .sending r ∨ s.pc c = .waiting r)
    (hiss : t.issued = s.issued) (hq : ∀ r ∈ t.q.buf, Known s.issued r) (hrq : ∀ r ∈ t.rq.buf, Known s.issued r)
    (hrel : t.relay = s.relay) (hlog : t.log = s.log) : Ids t := by
  refine ⟨?_, ?_, ?_, ?_, ?_, ?_⟩
  · rw [hiss]; exact hi.origin
  · intro d r h
    rw [hiss]
    rw [hpc] at h
    by_cases e : d = c
    · subst e
      rw [Function.update_self] at h
      exact hi.pc d r (hp r h)
    · rw [Function.update_of_ne e] at h
      exact hi.pc d r h
  · rw [hiss]; exact hq
  · rw [hiss]; exact hrq
  · rw [hiss, hrel]; exact hi.relay
  · rw [hiss, hlog]; exact hi.log

theorem mem_send {n : Nat} {α : Type} {c d : Chan n α} {a b : α} (h : c.send a = some d) :
    b ∈ d.buf ↔ b ∈ c.buf ∨ b = a := by
  rw [Chan.send_eq_some.mp h]
  simp

theorem mem_recv {n : Nat} {α : Type} {c d : Chan n α} {a b : α} (h : c.recv = some (a, d)) :
    b ∈ c.buf ↔ b = a ∨ b ∈ d.buf := by
  rw [Chan.recv_eq_some.mp h]
  simp

theorem step_ids {a : Agent} {s t : St σ Call Rep L cap rcap} (hi : Ids s) (h : Step V P a s t) : Ids t := by
  cases h with
  | tau c l _ _ => exact ⟨hi.origin, hi.pc, hi.q, hi.rq, hi.relay, hi.log⟩
  | begin c call hpc _ _ =>
    refine ⟨?_, ?_, fun r hr => (hi.q r hr).mono, fun r hr => (hi.rq r hr).mono, ?_, fun x hx => (hi.log x hx).mono⟩
    · intro r hr
      rcases hr.cases with hr | rfl
      · exact (hi.origin r hr).mono
      · exact hr
    · intro d r hd
      by_cases e : d = c
      · subst e
        simp only [Function.update_self, Pc.sending.injEq, reduceCtorEq, or_false] at hd
        subst hd
        exact ⟨Known.new rfl, rfl, rfl⟩
      · simp only [Function.update_of_ne e] at hd
        obtain ⟨h1, h2, h3⟩ := hi.pc d r hd
        exact ⟨h1.mono, h2, h3⟩
    · intro r r' hr
      obtain ⟨h1, h2, h3⟩ := hi.relay r r' hr
      exact ⟨h1.mono, h2.mono, h3⟩
  | push c r q' hpc _ _ hs =>
    refine hi.move rfl (fun r' h' => ?_) rfl (fun r' h' => ?_) hi.rq rfl rfl
    · left; simp at h'; rw [← h']; exact hpc
    · rcases (mem_send hs).mp h' with h' | rfl
      · exact hi.q r' h'
      · exact (hi.pc c r' (Or.inl hpc)).1
  | post c r q' hpc _ _ hs =>
    refine hi.move rfl (fun r' h' => by simp at h') rfl (fun r' h' => ?_) hi.rq rfl rfl
    rcases (mem_send hs).mp h' with h' | rfl
    · exact hi.q r' h'
    · exact (hi.pc c r' (Or.inl hpc)).1
  | ask c r q' hpc _ hs =>
    refine hi.move rfl (fun r' h' => ?_) rfl hi.q (fun r' h' => ?_) rfl rfl
    · left; simp at h'; rw [← h']; exact hpc
    · rcases (mem_send hs).mp h' with h' | rfl
      · exact hi.rq r' h'
      · exact (hi.pc c r' (Or.inl hpc)).1
  | recv c r v _ _ => exact hi.move rfl (fun r' h' => by simp at h') rfl hi.q hi.rq rfl rfl
  | serve r q' t v hq _ =>
    refine ⟨hi.origin, hi.pc, fun r' h' => hi.q r' ((mem_recv hq).mpr (Or.inr h')), hi.rq, hi.relay, ?_⟩
    intro x hx
    rcases List.mem_append.mp hx with hx | hx
    · exact hi.log x hx
    · rw [List.mem_singleton.mp hx]
      exact hi.q r ((mem_recv hq).mpr (Or.inl rfl))
  | take r q' _ hq =>
    have hr := hi.rq r ((mem_recv hq).mpr (Or.inl rfl))
    refine ⟨?_, ?_, fun r' h' => (hi.q r' h').mono, fun r' h' => (hi.rq r' ((mem_recv hq).mpr (Or.inr h'))).mono, ?_,
      fun x hx => (hi.log x hx).mono⟩
    · intro r' h'
      rcases h'.cases with h' | rfl
      · exact (hi.origin r' h').mono
      · exact (hi.origin r hr).mono
    · intro d r' hd
      obtain ⟨h1, h2, h3⟩ := hi.pc d r' hd
      exact ⟨h1.mono, h2, h3⟩
    · intro r1 r2 h'
      simp only [RPc.sending.injEq, reduceCtorEq, or_false] at h'
      obtain ⟨rfl, rfl⟩ := h'
      exact ⟨hr.mono, Known.new rfl, rfl, rfl, rfl, (Nat.ne_of_lt hr.lt).symm⟩
  | forward r r' q' hrel hs =>
    have hk := hi.relay r r' (Or.inl hrel)
    refine ⟨hi.origin, hi.pc, fun x hx => ?_, hi.rq, ?_, hi.log⟩
    · rcases (mem_send hs).mp hx with hx | rfl
      · exact hi.q x hx
      · exact hk.2.1
    · intro r1 r2 h'
      simp only [reduceCtorEq, RPc.waiting.injEq, false_or] at h'
      obtain ⟨rfl, rfl⟩ := h'
      exact hk
  | answer r r' v _ _ =>
    exact ⟨hi.origin, hi.pc, hi.q, hi.rq, fun r1 r2 h' => by simp at h', hi.log⟩

theorem ids {s : St σ Call Rep L cap rcap} (h : Reach V P s) : Ids s :=
  h.inv (fun _ e => e ▸ ids_init) (fun _ _ _ hi ⟨_, hs⟩ => step_ids hi hs)

/-- A property of the calls that the clients' programs make is one of every request. -/
theorem calls {φ : Nat → Call → Prop} (hφ : ∀ c l call, P.call c l call → φ c call) {s : St σ Call Rep L cap rcap}
    (h : Reach V P s) : ∀ r, Known s.issued r → φ r.who r.call := by
  refine h.inv (P := fun s => ∀ r, Known s.issued r → φ r.who r.call) ?_ ?_
  · rintro s rfl r hr
    simp [Known, init] at hr
  · intro s t hr ih ⟨a, hs⟩
    cases hs with
    | begin c call _ hc _ =>
      intro r hk
      rcases hk.cases with hk | rfl
      · exact ih r hk
      · exact hφ c _ call hc
    | take r' q' _ hq =>
      intro r hk
      rcases hk.cases with hk | rfl
      · exact ih r hk
      · exact ih r' ((ids hr).rq r' ((mem_recv hq).mpr (Or.inl rfl)))
    | _ => exact ih

/-! ## Who holds a call, and where its answer comes from -/

/-- The calls queued so far, in order. -/
def ops (s : St σ Call Rep L cap rcap) : List Nat := (ord s).map Req.op

theorem ord_send {s t : St σ Call Rep L cap rcap} {r : Req Call} (h : s.q.send r = some t.q) (hl : t.log = s.log) :
    ord t = ord s ++ [r] := by
  rw [ord, ord, hl, Chan.send_eq_some.mp h, List.append_assoc]

theorem ops_send {s t : St σ Call Rep L cap rcap} {r : Req Call} (h : s.q.send r = some t.q) (hl : t.log = s.log) :
    ops t = ops s ++ [r.op] := by
  rw [ops, ord_send h hl]
  simp [ops]

/-- Serving moves the head of the mailbox to the log: the order stays. -/
theorem ord_serve {s t : St σ Call Rep L cap rcap} {r : Req Call} {v : Option Rep}
    (h : s.q.recv = some (r, t.q)) (hl : t.log = s.log ++ [(r, v)]) : ord t = ord s := by
  rw [ord, ord, hl, Chan.recv_eq_some.mp h]
  simp

theorem ops_serve {s t : St σ Call Rep L cap rcap} {r : Req Call} {v : Option Rep}
    (h : s.q.recv = some (r, t.q)) (hl : t.log = s.log ++ [(r, v)]) : ops t = ops s := by
  rw [ops, ops, ord_serve h hl]

theorem Answered.mem_ops {s : St σ Call Rep L cap rcap} {op : Nat} {v : Option Rep} (h : Answered s.log op v) :
    op ∈ ops s := by
  obtain ⟨x, hx, rfl, -⟩ := h
  exact List.mem_map.mpr ⟨x.1, List.mem_append_left _ (List.mem_map.mpr ⟨x, hx, rfl⟩), rfl⟩

theorem Answered.mono {l : List (Req Call × Option Rep)} {x : Req Call × Option Rep} {op : Nat} {v : Option Rep}
    (h : Answered l op v) : Answered (l ++ [x]) op v := by
  obtain ⟨y, hy, h1⟩ := h
  exact ⟨y, List.mem_append_left _ hy, h1⟩

/-- `r` is in the relay's hand, unanswered. -/
def InRelay (s : St σ Call Rep L cap rcap) (r : Req Call) : Prop :=
  r ∈ s.rq.buf ∨ ∃ r', s.relay = .sending r r' ∨ s.relay = .waiting r r'

variable (V P) in
structure Hold (s : St σ Call Rep L cap rcap) : Prop where
  sendFresh : ∀ c r, s.pc c = .sending r → r.op ∉ ops s
  sendWants : ∀ c r, s.pc c = .sending r → P.direct c = false → V.wants r.call = true
  wait : ∀ c r, s.pc c = .waiting r → V.wants r.call = true ∧
    ((P.direct c = true ∧ r ∈ s.q.buf) ∨ (P.direct c = false ∧ InRelay s r) ∨ ∃ v, s.one r.tx = some v)
  inRelay : ∀ r, InRelay s r → s.pc r.who = .waiting r ∧ P.direct r.who = false ∧ s.one r.tx = none
  rqFresh : ∀ r ∈ s.rq.buf, r.op ∉ ops s
  rqNodup : s.rq.buf.Nodup
  relayFresh : ∀ r r', s.relay = .sending r r' → r.op ∉ ops s
  relayOut : ∀ r r', s.relay = .sending r r' ∨ s.relay = .waiting r r' → r ∉ s.rq.buf
  relayWait : ∀ r r', s.relay = .waiting r r' → r' ∈ s.q.buf ∨ ∃ v, s.one r'.tx = some v
  /-- A relayed call is in the mailbox only as the relay's own request. -/
  q : ∀ r ∈ s.q.buf, P.direct r.who = false → r.tx ≠ r.op
  nodup : (ops s).Nodup
  one : ∀ i v, s.one i = some v → ∃ r, s.issued[i]? = some r ∧ Answered s.log r.op (some v)

theorem hold_init : Hold V P (init V P : St σ Call Rep L cap rcap) := by
  constructor <;> simp [init, ops, ord, InRelay]

/-- Requests of different clients are for different calls. -/
theorem Ids.other {s : St σ Call Rep L cap rcap} (hi : Ids s) {r r' : Req Call} (hk : Known s.issued r)
    (hk' : Known s.issued r') (hw : r.who ≠ r'.who) : r.op ≠ r'.op := by
  intro e
  exact hw (hi.op_inj hk hk' e).1

theorem notMem_snoc {l : List Nat} {a b : Nat} (h : a ∉ l) (hne : a ≠ b) : a ∉ l ++ [b] := by
  simp [h, hne]

theorem nodup_snoc {l : List Nat} {a : Nat} (h : l.Nodup) (ha : a ∉ l) : (l ++ [a]).Nodup := by
  rw [List.nodup_append]
  refine ⟨h, by simp, fun b hb c hc => ?_⟩
  rw [List.mem_singleton.mp hc]
  rintro rfl
  exact ha hb

/-- What the clients' programs, the history and the server's own state are plays no part. -/
theorem Hold.congr {s t : St σ Call Rep L cap rcap} (hh : Hold V P s) (hq : t.q = s.q) (hrq : t.rq = s.rq)
    (hrel : t.relay = s.relay) (hpc : t.pc = s.pc) (hone : t.one = s.one) (hiss : t.issued = s.issued)
    (hlog : t.log = s.log) : Hold V P t := by
  cases s; cases t
  simp only at hq hrq hrel hpc hone hiss hlog
  subst hq hrq hrel hpc hone hiss hlog
  exact ⟨hh.sendFresh, hh.sendWants, hh.wait, hh.inRelay, hh.rqFresh, hh.rqNodup, hh.relayFresh, hh.relayOut,
    hh.relayWait, hh.q, hh.nodup, hh.one⟩

/-- A client that sends a request has not been answered. -/
theorem Hold.one_none {s : St σ Call Rep L cap rcap} (hh : Hold V P s) {r : Req Call} (hk : Known s.issued r)
    (hf : r.op ∉ ops s) : s.one r.tx = none := by
  cases hv : s.one r.tx with
  | none => rfl
  | some v =>
    obtain ⟨r', hr', ha⟩ := hh.one r.tx v hv
    rw [Known] at hk
    rw [hk, Option.some.injEq] at hr'
    subst hr'
    exact absurd ha.mem_ops hf

/-- A request in the relay's hand is not its sender's any more. -/
theorem Hold.who_ne {s : St σ Call Rep L cap rcap} (hh : Hold V P s) {r : Req Call} (hr : InRelay s r) {c : Nat}
    (hpc : s.pc c ≠ .waiting r) : r.who ≠ c := by
  rintro rfl
  exact hpc (hh.inRelay r hr).1

/-- A waiting client's answer stays on its way, or there, whatever its request goes through. -/
theorem Hold.wait_of {s t : St σ Call Rep L cap rcap} (hh : Hold V P s) {c : Nat} {r : Req Call} (h : s.pc c = .waiting r)
    (hq : r ∈ s.q.buf → V.wants r.call = true → r ∈ t.q.buf ∨ ∃ v, t.one r.tx = some v)
    (hrel : InRelay s r → InRelay t r ∨ ∃ v, t.one r.tx = some v)
    (hone : ∀ v, s.one r.tx = some v → ∃ w, t.one r.tx = some w) :
    V.wants r.call = true ∧
      ((P.direct c = true ∧ r ∈ t.q.buf) ∨ (P.direct c = false ∧ InRelay t r) ∨ ∃ v, t.one r.tx = some v) := by
  obtain ⟨hw, h⟩ := hh.wait c r h
  refine ⟨hw, ?_⟩
  rcases h with ⟨hd, h⟩ | ⟨hd, h⟩ | ⟨v, h⟩
  · rcases hq h hw with h | h
    · exact Or.inl ⟨hd, h⟩
    · exact Or.inr (Or.inr h)
  · rcases hrel h with h | h
    · exact Or.inr (Or.inl ⟨hd, h⟩)
    · exact Or.inr (Or.inr h)
  · exact Or.inr (Or.inr (hone v h))

/-- A relayed client waits on while another client moves. -/
theorem Hold.inRelay_of {s : St σ Call Rep L cap rcap} (hh : Hold V P s) {c : Nat} {p : Pc Call} {r : Req Call}
    (hr : InRelay s r) (hne : r.who ≠ c) :
    update s.pc c p r.who = .waiting r ∧ P.direct r.who = false ∧ s.one r.tx = none := by
  rw [Function.update_of_ne hne]
  exact hh.inRelay r hr

/-- A new request changes nothing about the one-shots there are. -/
theorem Hold.one_issued {s : St σ Call Rep L cap rcap} (hh : Hold V P s) (x : Req Call) (i : Nat) (v : Rep)
    (hv : s.one i = some v) : ∃ r, (s.issued ++ [x])[i]? = some r ∧ Answered s.log r.op (some v) := by
  obtain ⟨r, hr, ha⟩ := hh.one i v hv
  obtain ⟨hlt, -⟩ := List.getElem?_eq_some_iff.mp hr
  exact ⟨r, by rw [List.getElem?_append_left hlt, hr], ha⟩

/-- A direct client queues its request. -/
theorem Hold.send {s : St σ Call Rep L cap rcap} (hi : Ids s) (hh : Hold V P s) {c : Nat} {r : Req Call}
    {q' : Chan cap (Req Call)} {p : Pc Call} (hpc : s.pc c = .sending r) (hdir : P.direct c = true)
    (hs : s.q.send r = some q') (hp : p = .idle ∨ p = .waiting r ∧ V.wants r.call = true) :
    Hold V P { s with q := q', pc := update s.pc c p } := by
  obtain ⟨hk, hwho, -⟩ := hi.pc c r (Or.inl hpc)
  have hops : ops { s with q := q', pc := update s.pc c p } = ops s ++ [r.op] := ops_send hs rfl
  have hns : ∀ d r', update s.pc c p d = .sending r' → d ≠ c ∧ s.pc d = .sending r' := by
    intro d r' h
    rcases update_cases h with ⟨-, h⟩ | h
    · rcases hp with hp | ⟨hp, -⟩ <;> rw [hp] at h <;> cases h
    · exact h
  have hrel : ∀ r', InRelay s r' → r'.who ≠ c := fun r' hr' => hh.who_ne hr' (by simp [hpc])
  refine ⟨?_, ?_, ?_, fun r' hr' => hh.inRelay_of hr' (hrel r' hr'), ?_, hh.rqNodup, ?_, hh.relayOut, ?_, ?_, ?_, hh.one⟩
  · intro d r' hd
    obtain ⟨e, hd⟩ := hns d r' hd
    obtain ⟨hk', hwho', -⟩ := hi.pc d r' (Or.inl hd)
    rw [hops]
    exact notMem_snoc (hh.sendFresh d r' hd) (hi.other hk' hk (by rw [hwho, hwho']; exact e))
  · intro d r' hd
    exact hh.sendWants d r' (hns d r' hd).2
  · intro d r' hd
    rcases update_cases hd with ⟨rfl, h⟩ | ⟨-, h⟩
    · rcases hp with hp | ⟨hp, hw⟩
      · rw [hp] at h; cases h
      · rw [hp, Pc.waiting.injEq] at h
        subst h
        exact ⟨hw, Or.inl ⟨hdir, (mem_send hs).mpr (Or.inr rfl)⟩⟩
    · exact hh.wait_of h (fun h _ => Or.inl ((mem_send hs).mpr (Or.inl h))) Or.inl fun v h => ⟨v, h⟩
  · intro r' hr'
    rw [hops]
    exact notMem_snoc (hh.rqFresh r' hr') (hi.other (hi.rq r' hr') hk (by rw [hwho]; exact hrel r' (Or.inl hr')))
  · intro r1 r2 hr
    rw [hops]
    refine notMem_snoc (hh.relayFresh r1 r2 hr) (hi.other (hi.relay r1 r2 (Or.inl hr)).1 hk ?_)
    rw [hwho]
    exact hrel r1 (Or.inr ⟨r2, Or.inl hr⟩)
  · intro r1 r2 hr
    rcases hh.relayWait r1 r2 hr with h | h
    · exact Or.inl ((mem_send hs).mpr (Or.inl h))
    · exact Or.inr h
  · intro r' hr' hd
    rcases (mem_send hs).mp hr' with hr' | rfl
    · exact hh.q r' hr' hd
    · rw [hwho, hdir] at hd; cases hd
  · rw [hops]
    exact nodup_snoc hh.nodup (hh.sendFresh c r hpc)

/-- A relayed client queues its request for the relay. -/
theorem Hold.ask {s : St σ Call Rep L cap rcap} (hi : Ids s) (hh : Hold V P s) {c : Nat} {r : Req Call}
    {q' : Chan rcap (Req Call)} (hpc : s.pc c = .sending r) (hdir : P.direct c = false) (hs : s.rq.send r = some q') :
    Hold V P { s with rq := q', pc := update s.pc c (.waiting r) } := by
  obtain ⟨hk, hwho, -⟩ := hi.pc c r (Or.inl hpc)
  have hnew : ∀ r', InRelay s r' → r'.who ≠ c := fun r' hr' => hh.who_ne hr' (by simp [hpc])
  have hrel : ∀ r', InRelay { s with rq := q', pc := update s.pc c (.waiting r) } r' → InRelay s r' ∨ r' = r := by
    intro r' hr'
    rcases hr' with hr' | hr'
    · rcases (mem_send hs).mp hr' with hr' | rfl
      · exact Or.inl (Or.inl hr')
      · exact Or.inr rfl
    · exact Or.inl (Or.inr hr')
  have hns : ∀ d r', update s.pc c (.waiting r) d = .sending r' → s.pc d = .sending r' := by
    intro d r' hd
    rcases update_cases hd with ⟨-, h⟩ | ⟨-, h⟩
    · cases h
    · exact h
  refine ⟨fun d r' hd => hh.sendFresh d r' (hns d r' hd), fun d r' hd => hh.sendWants d r' (hns d r' hd), ?_, ?_, ?_,
    ?_, hh.relayFresh, ?_, hh.relayWait, hh.q, hh.nodup, hh.one⟩
  · intro d r' hd
    rcases update_cases hd with ⟨rfl, h⟩ | ⟨-, h⟩
    · rw [Pc.waiting.injEq] at h
      subst h
      exact ⟨hh.sendWants d r hpc hdir, Or.inr (Or.inl ⟨hdir, Or.inl ((mem_send hs).mpr (Or.inr rfl))⟩)⟩
    · refine hh.wait_of h (fun h _ => Or.inl h) (fun h => Or.inl ?_) fun v h => ⟨v, h⟩
      rcases h with h | h
      · exact Or.inl ((mem_send hs).mpr (Or.inl h))
      · exact Or.inr h
  · intro r' hr'
    rcases hrel r' hr' with hr' | rfl
    · exact hh.inRelay_of hr' (hnew r' hr')
    · subst hwho
      exact ⟨Function.update_self _ _ _, hdir, hh.one_none hk (hh.sendFresh _ r' hpc)⟩
  · intro r' hr'
    rcases (mem_send hs).mp hr' with hr' | rfl
    · exact hh.rqFresh r' hr'
    · exact hh.sendFresh c r' hpc
  · rw [Chan.send_eq_some.mp hs, List.nodup_append]
    refine ⟨hh.rqNodup, by simp, fun x hx y hy => ?_⟩
    rw [List.mem_singleton.mp hy]
    rintro rfl
    exact hnew x (Or.inl hx) hwho
  · intro r1 r2 hr hm
    rcases (mem_send hs).mp hm with hm | rfl
    · exact hh.relayOut r1 r2 hr hm
    · exact hnew r1 (Or.inr ⟨r2, hr⟩) hwho

/-- The server fills the one-shot of the request it serves, if that wants an answer. -/
theorem Hold.serve {s : St σ Call Rep L cap rcap} (hi : Ids s) (hh : Hold V P s) {r : Req Call}
    {q' : Chan cap (Req Call)} {u : σ} {v : Option Rep} (hq : s.q.recv = some (r, q')) (hsv : V.serve s.srv r.call u v) :
    Hold V P { s with
      srv := u
      q := q'
      one := if v.isSome then update s.one r.tx v else s.one
      log := s.log ++ [(r, v)] } := by
  have hv := V.serve_wants hsv
  have hkr := hi.q r ((mem_recv hq).mpr (Or.inl rfl))
  have hone : ∀ i w, s.one i = some w → ∃ w', (if v.isSome then update s.one r.tx v else s.one) i = some w' := by
    intro i w hw
    split
    · by_cases e : i = r.tx
      · subst e
        rw [Function.update_self]
        exact Option.isSome_iff_exists.mp ‹_›
      · exact ⟨w, by rwa [Function.update_of_ne e]⟩
    · exact ⟨w, hw⟩
  have hfill : ∀ r', r' ∈ s.q.buf → V.wants r'.call = true →
      r' ∈ q'.buf ∨ ∃ w, (if v.isSome then update s.one r.tx v else s.one) r'.tx = some w := by
    intro r' hr' hw
    rcases (mem_recv hq).mp hr' with rfl | hr'
    · right
      rw [hv, if_pos hw, Function.update_self]
      exact Option.isSome_iff_exists.mp (hv.trans hw)
    · exact Or.inl hr'
  refine ⟨?_, hh.sendWants, fun d r' hd => hh.wait_of hd (hfill r') Or.inl (hone _), ?_, ?_, hh.rqNodup, ?_, hh.relayOut,
    ?_, fun r' hr' => hh.q r' ((mem_recv hq).mpr (Or.inr hr')), ?_, ?_⟩
  · intro d r' hd
    rw [ops_serve hq rfl]
    exact hh.sendFresh d r' hd
  · intro r' hr'
    obtain ⟨h1, h2, h3⟩ := hh.inRelay r' hr'
    refine ⟨h1, h2, ?_⟩
    show (if v.isSome then update s.one r.tx v else s.one) r'.tx = none
    split
    · -- the one-shot filled is that of a request in the mailbox, not the relayed client's own
      have hne : r'.tx ≠ r.tx := by
        intro e
        obtain ⟨hk', -, hop⟩ := hi.pc r'.who r' (Or.inr h1)
        have := hk'.tx_inj hkr e
        subst this
        exact hh.q r' ((mem_recv hq).mpr (Or.inl rfl)) h2 hop.symm
      rwa [Function.update_of_ne hne]
    · exact h3
  · intro r' hr'
    rw [ops_serve hq rfl]
    exact hh.rqFresh r' hr'
  · intro r1 r2 hr
    rw [ops_serve hq rfl]
    exact hh.relayFresh r1 r2 hr
  · intro r1 r2 hr
    rcases hh.relayWait r1 r2 hr with h | ⟨w, h⟩
    · refine hfill r2 h ?_
      rw [(hi.relay r1 r2 (Or.inr hr)).2.2.2.2.1]
      exact (hh.wait _ r1 (hh.inRelay r1 (Or.inr ⟨r2, Or.inr hr⟩)).1).1
    · exact Or.inr (hone _ w h)
  · rw [ops_serve hq rfl]
    exact hh.nodup
  · intro i w hw
    have old : s.one i = some w → ∃ r', s.issued[i]? = some r' ∧ Answered (s.log ++ [(r, v)]) r'.op (some w) := by
      intro h
      obtain ⟨r', hr', ha⟩ := hh.one i w h
      exact ⟨r', hr', ha.mono⟩
    simp only at hw
    split at hw
    · rcases update_cases hw with ⟨rfl, h⟩ | ⟨-, h⟩
      · exact ⟨r, hkr, (r, v), by simp, rfl, h⟩
      · exact old h
    · exact old hw

/-- The relay takes a request, and makes its own for it. -/
theorem Hold.take {s : St σ Call Rep L cap rcap} (hh : Hold V P s) {r r' : Req Call} {q' : Chan rcap (Req Call)}
    (hrel : s.relay = .idle) (hq : s.rq.recv = some (r, q')) :
    Hold V P { s with rq := q', relay := .sending r r', issued := s.issued ++ [r'] } := by
  have hin : ∀ r' r1, (r' ∈ q'.buf ∨ ∃ x, RPc.sending r r1 = .sending r' x ∨ RPc.sending r r1 = .waiting r' x) ↔
      InRelay s r' := by
    intro r' r1
    rw [InRelay, mem_recv hq, hrel]
    simp [or_comm, eq_comm]
  have hnd : r ∉ q'.buf ∧ q'.buf.Nodup := by
    have := hh.rqNodup
    rw [Chan.recv_eq_some.mp hq] at this
    exact List.nodup_cons.mp this
  refine ⟨hh.sendFresh, hh.sendWants, fun d r' hd => hh.wait_of hd (fun h _ => Or.inl h)
    (fun h => Or.inl ((hin r' _).mpr h)) (fun v h => ⟨v, h⟩), fun r' hr' => hh.inRelay r' ((hin r' _).mp hr'),
    fun r' hr' => hh.rqFresh r' ((mem_recv hq).mpr (Or.inr hr')), hnd.2, ?_, ?_, fun r1 r2 hr => by simp at hr,
    hh.q, hh.nodup, hh.one_issued _⟩
  · intro r1 r2 hr
    simp only [RPc.sending.injEq] at hr
    rw [← hr.1]
    exact hh.rqFresh r ((mem_recv hq).mpr (Or.inl rfl))
  · intro r1 r2 hr
    simp only [RPc.sending.injEq, reduceCtorEq, or_false] at hr
    rw [← hr.1]
    exact hnd.1

/-- The relay queues its request. -/
theorem Hold.forward {s : St σ Call Rep L cap rcap} (hi : Ids s) (hh : Hold V P s) {r r' : Req Call}
    {q' : Chan cap (Req Call)} (hrel : s.relay = .sending r r') (hs : s.q.send r' = some q') :
    Hold V P { s with q := q', relay := .waiting r r' } := by
  obtain ⟨hk, hk', hwho, hop, -, htx⟩ := hi.relay r r' (Or.inl hrel)
  obtain ⟨hpc, hdir, -⟩ := hh.inRelay r (Or.inr ⟨r', Or.inl hrel⟩)
  have hin : ∀ x, InRelay { s with q := q', relay := RPc.waiting r r' } x ↔ InRelay s x := by
    intro x
    simp [InRelay, hrel]
  have hops : ops { s with q := q', relay := RPc.waiting r r' } = ops s ++ [r'.op] := ops_send hs rfl
  refine ⟨?_, hh.sendWants, fun d x hd => hh.wait_of hd (fun h _ => Or.inl ((mem_send hs).mpr (Or.inl h)))
    (fun h => Or.inl ((hin x).mpr h)) (fun v h => ⟨v, h⟩), fun x hx => hh.inRelay x ((hin x).mp hx), ?_, hh.rqNodup,
    fun r1 r2 hr => by simp at hr, ?_, ?_, ?_, ?_, hh.one⟩
  · intro d x hd
    obtain ⟨hkx, hwx, -⟩ := hi.pc d x (Or.inl hd)
    have hne : x.who ≠ r'.who := by
      rw [hwho, hwx]
      rintro rfl
      rw [hpc] at hd
      cases hd
    rw [hops]
    exact notMem_snoc (hh.sendFresh d x hd) (hi.other hkx hk' hne)
  · intro x hx
    have hne : x.who ≠ r'.who := by
      rw [hwho]
      intro e
      have h1 := (hh.inRelay x (Or.inl hx)).1
      rw [e, hpc, Pc.waiting.injEq] at h1
      subst h1
      exact hh.relayOut r r' (Or.inl hrel) hx
    rw [hops]
    exact notMem_snoc (hh.rqFresh x hx) (hi.other (hi.rq x hx) hk' hne)
  · intro r1 r2 hr
    simp only [reduceCtorEq, RPc.waiting.injEq, false_or] at hr
    rw [← hr.1]
    exact hh.relayOut r r' (Or.inl hrel)
  · intro r1 r2 hr
    simp only [RPc.waiting.injEq] at hr
    exact Or.inl ((mem_send hs).mpr (Or.inr hr.2.symm))
  · intro x hx hd
    rcases (mem_send hs).mp hx with hx | rfl
    · exact hh.q x hx hd
    · rw [hop, (hi.pc _ r (Or.inr hpc)).2.2]
      exact htx
  · rw [hops]
    exact nodup_snoc hh.nodup (by rw [hop]; exact hh.relayFresh r r' hrel)

/-- The relay hands its answer on. -/
theorem Hold.answer {s : St σ Call Rep L cap rcap} (hi : Ids s) (hh : Hold V P s) {r r' : Req Call} {v : Rep}
    (hrel : s.relay = .waiting r r') (ho : s.one r'.tx = some v) :
    Hold V P { s with relay := .idle, one := update s.one r.tx (some v) } := by
  obtain ⟨hk, hk', -, hop, -, -⟩ := hi.relay r r' (Or.inr hrel)
  have hout := hh.relayOut r r' (Or.inr hrel)
  have hin : ∀ x, InRelay s x → x ∈ s.rq.buf ∨ x = r := by
    intro x hx
    rcases hx with hx | ⟨y, hx | hx⟩
    · exact Or.inl hx
    · rw [hrel] at hx; cases hx
    · rw [hrel, RPc.waiting.injEq] at hx; exact Or.inr hx.1.symm
  refine ⟨hh.sendFresh, hh.sendWants, ?_, ?_, hh.rqFresh, hh.rqNodup, fun r1 r2 hr => by simp at hr,
    fun r1 r2 hr => by simp at hr, fun r1 r2 hr => by simp at hr, hh.q, hh.nodup, ?_⟩
  · intro d x hd
    refine hh.wait_of hd (fun h _ => Or.inl h) (fun h => ?_) fun w h => ?_
    · rcases hin x h with h | rfl
      · exact Or.inl (Or.inl h)
      · exact Or.inr ⟨v, Function.update_self _ _ _⟩
    · by_cases e : x.tx = r.tx
      · exact ⟨v, by simp [e]⟩
      · exact ⟨w, by simpa only [Function.update_of_ne e] using h⟩
  · intro x hx
    have hx' : x ∈ s.rq.buf := by
      rcases hx with hx | ⟨y, hx⟩
      · exact hx
      · simp at hx
    obtain ⟨h1, h2, h3⟩ := hh.inRelay x (Or.inl hx')
    have hne : x.tx ≠ r.tx := by
      intro e
      have := (hi.rq x hx').tx_inj hk e
      subst this
      exact hout hx'
    exact ⟨h1, h2, by simpa only [Function.update_of_ne hne] using h3⟩
  · intro i w hw
    rcases update_cases hw with ⟨rfl, h⟩ | ⟨-, h⟩
    · rw [Option.some.injEq] at h
      subst h
      obtain ⟨x, hx, ha⟩ := hh.one _ v ho
      rw [Known] at hk'
      rw [hk', Option.some.injEq] at hx
      subst hx
      exact ⟨r, hk, by rw [← hop]; exact ha⟩
    · exact hh.one i w h

theorem step_hold {a : Agent} {s t : St σ Call Rep L cap rcap} (hi : Ids s) (hh : Hold V P s) (h : Step V P a s t) :
    Hold V P t := by
  cases h with
  | tau c l _ _ => exact hh.congr rfl rfl rfl rfl rfl rfl rfl
  | begin c call hpc _ hw =>
    refine ⟨?_, ?_, ?_, fun r hr => hh.inRelay_of hr (hh.who_ne hr (by simp [hpc])), hh.rqFresh, hh.rqNodup, hh.relayFresh,
      hh.relayOut, hh.relayWait, hh.q, hh.nodup, hh.one_issued _⟩
    · intro d r hd hm
      rcases update_cases hd with ⟨-, h⟩ | ⟨-, h⟩
      · rw [Pc.sending.injEq] at h
        subst h
        obtain ⟨r', hr', he⟩ := List.mem_map.mp hm
        exact absurd he (Nat.ne_of_lt (hi.op_lt (hi.ord r' hr')))
      · exact hh.sendFresh d r h hm
    · intro d r hd hdir
      rcases update_cases hd with ⟨rfl, h⟩ | ⟨-, h⟩
      · rw [Pc.sending.injEq] at h
        subst h
        exact hw hdir
      · exact hh.sendWants d r h hdir
    · intro d r hd
      rcases update_cases hd with ⟨-, h⟩ | ⟨-, h⟩
      · cases h
      · exact hh.wait d r h
  | push c r q' hpc hdir hw hs => exact hh.send hi hpc hdir hs (Or.inr ⟨rfl, hw⟩)
  | post c r q' hpc hdir _ hs =>
    exact (hh.send hi hpc hdir hs (Or.inl rfl)).congr rfl rfl rfl rfl rfl rfl rfl
  | ask c r q' hpc hdir hs => exact hh.ask hi hpc hdir hs
  | recv c r v hpc ho =>
    have hns : ∀ d p, update s.pc c .idle d = p → p ≠ .idle → s.pc d = p := by
      intro d p hd hp
      rcases update_cases hd with ⟨-, h⟩ | ⟨-, h⟩
      · exact absurd h.symm hp
      · exact h
    refine ⟨fun d r' hd => hh.sendFresh d r' (hns d _ hd (by simp)), fun d r' hd => hh.sendWants d r' (hns d _ hd (by simp)),
      fun d r' hd => hh.wait d r' (hns d _ hd (by simp)), fun r' hr' => hh.inRelay_of hr' ?_, hh.rqFresh, hh.rqNodup,
      hh.relayFresh, hh.relayOut, hh.relayWait, hh.q, hh.nodup, hh.one⟩
    -- a relayed client in `c`'s place would have no answer yet
    rintro rfl
    obtain ⟨h1, -, h3⟩ := hh.inRelay r' hr'
    rw [hpc, Pc.waiting.injEq] at h1
    subst h1
    rw [ho] at h3
    cases h3
  | serve r q' u v hq hsv => exact hh.serve hi hq hsv
  | take r q' hrel hq => exact hh.take hrel hq
  | forward r r' q' hrel hs => exact hh.forward hi hrel hs
  | answer r r' v hrel ho => exact hh.answer hi hrel ho

theorem hold {s : St σ Call Rep L cap rcap} (h : Reach V P s) : Hold V P s :=
  h.inv (fun _ e => e ▸ hold_init) (fun _ _ hr hh ⟨_, hs⟩ => step_hold (ids hr) hh hs)

/-! ## The order of the mailbox linearizes the history -/

theorem before_snoc {α : Type} {l : List α} {a b c : α} : Before (l ++ [c]) a b ↔ Before l a b ∨ (b = c ∧ a ∈ l) := by
  unfold Before
  rw [List.sublist_append_iff]
  refine ⟨fun ⟨l1, l2, he, h1, h2⟩ => ?_, fun h => ?_⟩
  · rcases List.sublist_singleton.mp h2 with rfl | rfl
    · left; rw [he, List.append_nil]; exact h1
    · right
      obtain ⟨x, rfl⟩ : ∃ x, l1 = [x] := by
        have hl := congrArg List.length he
        simp only [List.length_cons, List.length_nil, List.length_append] at hl
        exact List.length_eq_one_iff.mp (by omega)
      simp only [List.cons_append, List.nil_append, List.cons.injEq, and_true] at he
      exact ⟨he.2, by rw [he.1]; exact List.singleton_sublist.mp h1⟩
  · rcases h with h | ⟨rfl, ha⟩
    · exact ⟨[a, b], [], by simp, h, List.nil_sublist _⟩
    · exact ⟨[a], [b], rfl, List.singleton_sublist.mpr ha, List.Sublist.refl _⟩

theorem Before.append {α : Type} {l m : List α} {a b : α} (h : Before l a b) : Before (l ++ m) a b :=
  List.Sublist.trans h (List.sublist_append_left l m)

theorem Before.left {α : Type} {l : List α} {a b : α} (h : Before l a b) : a ∈ l := h.subset (by simp)

/-- What comes before `b`, where `b` stands only once. -/
theorem Before.mem_left {α : Type} {l m : List α} {a b : α} (h : Before (l ++ b :: m) a b) (hn : (l ++ b :: m).Nodup) :
    a ∈ l := by
  obtain ⟨hl, hbm, hdis⟩ := List.nodup_append.mp hn
  have hb : b ∉ m := (List.nodup_cons.mp hbm).1
  obtain ⟨p, q, he, hp, hq⟩ := List.sublist_append_iff.mp h
  cases p with
  | nil =>
    rw [List.nil_append] at he
    subst he
    cases hq with
    | cons _ hq => exact absurd (hq.subset (by simp)) hb
    | cons_cons _ hq => exact absurd (hq.subset (by simp)) hb
  | cons a' p =>
    rw [List.cons_append] at he
    injection he with ha
    rw [ha]
    exact hp.subset List.mem_cons_self

theorem Before.right {α : Type} {l : List α} {a b : α} (h : Before l a b) : b ∈ l := h.subset (by simp)

variable (V) in
structure Hist (s : St σ Call Rep L cap rcap) : Prop where
  inv : ∀ c op call, .inv c op call ∈ s.hist → Known s.issued ⟨c, op, call, op⟩
  begun : ∀ r, Known s.issued r → .inv r.who r.op r.call ∈ s.hist
  ret : ∀ c op v, .ret c op v ∈ s.hist → ∃ r ∈ ord s, r.who = c ∧ r.op = op ∧ v.isSome = V.wants r.call ∧
    (v.isSome = true → Answered s.log op v)
  /-- A client has at most one call that has not returned: the one in its hand. -/
  busy : ∀ c op call, .inv c op call ∈ s.hist →
    (∃ v, .ret c op v ∈ s.hist) ∨ ∃ r, (s.pc c = .sending r ∨ s.pc c = .waiting r) ∧ r.op = op
  realTime : ∀ c op v c' op' call, Before s.hist (.ret c op v) (.inv c' op' call) → op' ∈ ops s →
    Before (ops s) op op'
  program : ∀ c op call op' call', Before s.hist (.inv c op call) (.inv c op' call') →
    ∃ v, Before s.hist (.ret c op v) (.inv c op' call')
  runs : Runs V V.init (s.log.map fun x => (x.1.call, x.2)) s.srv

theorem hist_init : Hist V (init V P : St σ Call Rep L cap rcap) := by
  refine ⟨?_, ?_, ?_, ?_, ?_, ?_, Runs.nil _⟩ <;> simp [init, Known, Before]

/-- A step that queues `r`, or nothing, and records no event. -/
theorem Hist.silent {s t : St σ Call Rep L cap rcap} (hh : Hist V s) (hist : t.hist = s.hist)
    (hiss : ∀ r, Known t.issued r →
      Known s.issued r ∨ ∃ r', Known s.issued r' ∧ r'.who = r.who ∧ r'.op = r.op ∧ r'.call = r.call)
    (mono : ∀ r, Known s.issued r → Known t.issued r)
    (hord : ord t = ord s ∨ ∃ r, ord t = ord s ++ [r])
    (hpc : ∀ c r, s.pc c = .sending r ∨ s.pc c = .waiting r → t.pc c = .sending r ∨ t.pc c = .waiting r)
    (hlog : ∀ op v, Answered s.log op v → Answered t.log op v)
    (hruns : Runs V V.init (t.log.map fun x => (x.1.call, x.2)) t.srv) : Hist V t := by
  have hsub : ∀ r ∈ ord s, r ∈ ord t := by
    intro r hr
    rcases hord with h | ⟨x, h⟩ <;> rw [h]
    · exact hr
    · exact List.mem_append_left _ hr
  refine ⟨?_, ?_, ?_, ?_, ?_, ?_, hruns⟩
  · intro c op call h
    rw [hist] at h
    exact mono _ (hh.inv c op call h)
  · intro r hr
    rw [hist]
    rcases hiss r hr with hr | ⟨r', hr, h1, h2, h3⟩
    · exact hh.begun r hr
    · rw [← h1, ← h2, ← h3]
      exact hh.begun r' hr
  · intro c op v h
    rw [hist] at h
    obtain ⟨r, hr, h1, h2, h3, h4⟩ := hh.ret c op v h
    exact ⟨r, hsub r hr, h1, h2, h3, fun hv => hlog _ _ (h4 hv)⟩
  · intro c op call h
    rw [hist] at h ⊢
    rcases hh.busy c op call h with h | ⟨r, h, e⟩
    · exact Or.inl h
    · exact Or.inr ⟨r, hpc c r h, e⟩
  · intro c op v c' op' call h hm
    rw [hist] at h
    rcases hord with e | ⟨x, e⟩
    · rw [ops, e] at hm ⊢
      exact hh.realTime c op v c' op' call h hm
    · have e' : ops t = ops s ++ [x.op] := by simp [ops, e]
      rw [e'] at hm ⊢
      obtain ⟨r, hr, -, h1, -⟩ := hh.ret c op v h.left
      rcases List.mem_append.mp hm with hm | hm
      · exact (hh.realTime c op v c' op' call h hm).append
      · -- the call queued now: every call that returned before it began is queued already
        exact before_snoc.mpr (Or.inr ⟨List.mem_singleton.mp hm, by rw [← h1]; exact List.mem_map_of_mem hr⟩)
  · rw [hist]; exact hh.program

/-- Client `c`'s call returns `v`. -/
theorem Hist.returns {s t : St σ Call Rep L cap rcap} (hh : Hist V s) {c : Nat} {r : Req Call} {v : Option Rep}
    (hr : ∃ r' ∈ ord s, r'.who = c ∧ r'.op = r.op ∧ v.isSome = V.wants r'.call ∧ (v.isSome = true → Answered s.log r.op v))
    (hpc : s.pc c = .sending r ∨ s.pc c = .waiting r) (ht : t.pc = update s.pc c .idle)
    (hist : t.hist = s.hist ++ [.ret c r.op v]) (hiss : t.issued = s.issued) (hlog : t.log = s.log) (hq : t.q = s.q)
    (hsrv : t.srv = s.srv) : Hist V t := by
  have hord : ord t = ord s := by rw [ord, ord, hlog, hq]
  have hops : ops t = ops s := by rw [ops, ops, hord]
  refine ⟨?_, ?_, ?_, ?_, ?_, ?_, by rw [hlog, hsrv]; exact hh.runs⟩
  · intro d op call h
    rw [hist] at h
    rw [hiss]
    exact hh.inv d op call (by simpa using h)
  · intro r' h
    rw [hiss] at h
    rw [hist]
    exact List.mem_append_left _ (hh.begun r' h)
  · intro d op w h
    rw [hist] at h
    rw [hord, hlog]
    rcases List.mem_append.mp h with h | h
    · exact hh.ret d op w h
    · obtain ⟨rfl, rfl, rfl⟩ : d = c ∧ op = r.op ∧ w = v := by simpa using h
      exact hr
  · intro d op call h
    rw [hist] at h ⊢
    rcases hh.busy d op call (by simpa using h) with ⟨w, hw⟩ | ⟨r', hr', e⟩
    · exact Or.inl ⟨w, List.mem_append_left _ hw⟩
    · by_cases hd : d = c
      · rw [hd] at hr'
        have : r' = r := by
          rcases hr' with h1 | h1 <;> rcases hpc with h2 | h2 <;> rw [h1] at h2 <;> simp at h2
          · exact h2
          · exact h2
        exact Or.inl ⟨v, by simp [hd, ← e, this]⟩
      · rw [ht, Function.update_of_ne hd]
        exact Or.inr ⟨r', hr', e⟩
  · intro d op w d' op' call h hm
    rw [hops] at hm ⊢
    rw [hist, before_snoc] at h
    rcases h with h | ⟨h, -⟩
    · exact hh.realTime d op w d' op' call h hm
    · cases h
  · intro d op call op' call' h
    rw [hist, before_snoc] at h
    rcases h with h | ⟨h, -⟩
    · obtain ⟨w, hw⟩ := hh.program d op call op' call' h
      exact ⟨w, by rw [hist]; exact hw.append⟩
    · cases h

/-- A client whose request was queued still has its call in its hand. -/
theorem busy_waits {pc : Nat → Pc Call} {c d : Nat} {r r' : Req Call} (hpc : pc c = .sending r)
    (h : pc d = .sending r' ∨ pc d = .waiting r') :
    update pc c (.waiting r) d = .sending r' ∨ update pc c (.waiting r) d = .waiting r' := by
  by_cases e : d = c
  · subst e
    rw [hpc] at h
    simp only [Pc.sending.injEq, reduceCtorEq, or_false] at h
    rw [h]
    exact Or.inr (Function.update_self _ _ _)
  · rwa [Function.update_of_ne e]

theorem step_hist {a : Agent} {s t : St σ Call Rep L cap rcap} (hi : Ids s) (ho : Hold V P s) (hh : Hist V s)
    (h : Step V P a s t) : Hist V t := by
  cases h with
  | tau c l _ _ =>
    exact hh.silent rfl (fun r h => Or.inl h) (fun r h => h) (Or.inl rfl) (fun d r h => h) (fun op v h => h) hh.runs
  | begin c call hpc _ _ =>
    have hnew : ∀ op, op ∈ ops s → op ≠ s.issued.length := by
      intro op h
      obtain ⟨r, hr, rfl⟩ := List.mem_map.mp h
      exact Nat.ne_of_lt (hi.op_lt (hi.ord r hr))
    refine ⟨?_, ?_, ?_, ?_, ?_, ?_, hh.runs⟩
    · intro d op call' h
      rcases List.mem_append.mp h with h | h
      · exact (hh.inv d op call' h).mono
      · simp only [List.mem_singleton, Ev.inv.injEq] at h
        obtain ⟨rfl, rfl, rfl⟩ := h
        exact Known.new rfl
    · intro r h
      rcases h.cases with h | rfl
      · exact List.mem_append_left _ (hh.begun r h)
      · exact List.mem_append_right _ (by simp)
    · intro d op v h
      exact hh.ret d op v (by simpa using h)
    · intro d op call' h
      rcases List.mem_append.mp h with h | h
      · rcases hh.busy d op call' h with ⟨v, h⟩ | ⟨r, h, e⟩
        · exact Or.inl ⟨v, List.mem_append_left _ h⟩
        · have hd : d ≠ c := by
            intro e
            rw [e, hpc] at h
            rcases h with h | h <;> cases h
          exact Or.inr ⟨r, by simpa only [Function.update_of_ne hd] using h, e⟩
      · simp only [List.mem_singleton, Ev.inv.injEq] at h
        obtain ⟨rfl, rfl, rfl⟩ := h
        exact Or.inr ⟨_, Or.inl (Function.update_self _ _ _), rfl⟩
    · intro d op v d' op' call' h hm
      rcases before_snoc.mp h with h | ⟨h, -⟩
      · exact hh.realTime d op v d' op' call' h hm
      · simp only [Ev.inv.injEq] at h
        exact absurd h.2.1 (hnew op' hm)
    · intro d op call1 op' call2 h
      rcases before_snoc.mp h with h | ⟨h, hm⟩
      · obtain ⟨v, hv⟩ := hh.program d op call1 op' call2 h
        exact ⟨v, hv.append⟩
      · -- the client is idle: each of its calls has returned
        simp only [Ev.inv.injEq] at h
        obtain ⟨rfl, rfl, rfl⟩ := h
        rcases hh.busy d op call1 hm with ⟨v, hv⟩ | ⟨r, h, -⟩
        · exact ⟨v, before_snoc.mpr (Or.inr ⟨rfl, hv⟩)⟩
        · rw [hpc] at h
          rcases h with h | h <;> cases h
  | push c r q' hpc _ _ hs =>
    exact hh.silent rfl (fun r h => Or.inl h) (fun r h => h) (Or.inr ⟨r, ord_send hs rfl⟩) (fun d r' => busy_waits hpc)
      (fun op v h => h) hh.runs
  | post c r q' hpc _ hw hs =>
    have hq : Hist V { s with q := q' } :=
      hh.silent rfl (fun r h => Or.inl h) (fun r h => h) (Or.inr ⟨r, ord_send hs rfl⟩) (fun d r h => h)
        (fun op v h => h) hh.runs
    refine hq.returns (c := c) (r := r) (v := none)
      ⟨r, ?_, (hi.pc c r (Or.inl hpc)).2.1, rfl, hw.symm, fun h => by cases h⟩ (Or.inl hpc) rfl rfl rfl rfl rfl rfl
    rw [ord_send (s := s) (t := { s with q := q' }) hs rfl]
    simp
  | ask c r q' hpc _ hs =>
    exact hh.silent rfl (fun r h => Or.inl h) (fun r h => h) (Or.inl rfl) (fun d r' => busy_waits hpc) (fun op v h => h)
      hh.runs
  | recv c r v hpc hone =>
    obtain ⟨r', hr', ha⟩ := ho.one r.tx v hone
    have hk := (hi.pc c r (Or.inr hpc)).1
    rw [Known, hr', Option.some.injEq] at hk
    subst hk
    obtain ⟨x, hx, e, -⟩ := id ha
    obtain ⟨hk, hwho, -⟩ := hi.pc c r' (Or.inr hpc)
    obtain ⟨hwho', hcall⟩ := hi.op_inj (hi.log x hx) hk e
    refine hh.returns ⟨x.1, List.mem_append_left _ (List.mem_map_of_mem hx), hwho'.trans hwho, e, ?_, fun _ => ha⟩
      (Or.inr hpc) rfl rfl rfl rfl rfl rfl
    rw [hcall, (ho.wait c r' hpc).1]
    rfl
  | serve r q' u v hq hsv =>
    refine hh.silent rfl (fun r h => Or.inl h) (fun r h => h) (Or.inl (ord_serve hq rfl)) (fun d r h => h)
      (fun op v h => h.mono) ?_
    simp only [List.map_append, List.map_cons, List.map_nil]
    exact Runs.snoc hh.runs hsv
  | take r q' _ hq =>
    have hr := hi.rq r ((mem_recv hq).mpr (Or.inl rfl))
    refine hh.silent rfl (fun r' h => ?_) (fun r' h => h.mono) (Or.inl rfl) (fun d r h => h) (fun op v h => h) hh.runs
    rcases h.cases with h | rfl
    · exact Or.inl h
    · exact Or.inr ⟨r, hr, rfl, rfl, rfl⟩
  | forward r r' q' _ hs =>
    exact hh.silent rfl (fun r h => Or.inl h) (fun r h => h) (Or.inr ⟨r', ord_send hs rfl⟩) (fun d r h => h)
      (fun op v h => h) hh.runs
  | answer r r' v _ _ =>
    exact hh.silent rfl (fun r h => Or.inl h) (fun r h => h) (Or.inl rfl) (fun d r h => h) (fun op v h => h) hh.runs

theorem hist {s : St σ Call Rep L cap rcap} (h : Reach V P s) : Hist V s :=
  h.inv (fun _ e => e ▸ hist_init) (fun _ _ hr hh ⟨_, hs⟩ => step_hist (ids hr) (hold hr) hh hs)

/-- The server can always go on to serve the requests still in the mailbox. -/
theorem Runs.extend {u t : σ} {l : List (Call × Option Rep)} (h : Runs V u l t) (q : List (Req Call)) :
    ∃ (l' : List (Req Call × Option Rep)) (t' : σ),
      l'.map (·.1) = q ∧ Runs V u (l ++ l'.map fun x => (x.1.call, x.2)) t' := by
  induction q generalizing l t with
  | nil => exact ⟨[], t, rfl, by simpa using h⟩
  | cons r q ih =>
    obtain ⟨t', v, hsv⟩ := V.serve_total t r.call
    obtain ⟨l', u', h1, h2⟩ := ih (Runs.snoc h hsv)
    exact ⟨(r, v) :: l', u', by simp [h1], by simpa using h2⟩

theorem Runs.snoc_inv {u t : σ} {l : List (Call × Option Rep)} {x : Call × Option Rep} (h : Runs V u (l ++ [x]) t) :
    ∃ w, Runs V u l w ∧ V.serve w x.1 t x.2 := by
  generalize hl : l ++ [x] = m at h
  cases h with
  | nil => simp at hl
  | snoc hr hs =>
    obtain ⟨rfl, hx⟩ := List.append_inj' hl rfl
    cases hx
    exact ⟨_, hr, hs⟩

/-- The server's state just before and just after one of the calls. -/
theorem Runs.split {u t : σ} {l l' : List (Call × Option Rep)} {x : Call × Option Rep}
    (h : Runs V u (l ++ x :: l') t) : ∃ w w', Runs V u l w ∧ V.serve w x.1 w' x.2 := by
  induction l' using List.reverseRecOn generalizing t with
  | nil =>
    obtain ⟨w, hr, hs⟩ := h.snoc_inv
    exact ⟨w, t, hr, hs⟩
  | append_singleton l' y ih =>
    rw [← List.cons_append, ← List.append_assoc] at h
    obtain ⟨w, hr, -⟩ := h.snoc_inv
    exact ih hr

/-- The answer of a call in a sequential run is there exactly when the call wants one. -/
theorem Runs.wants {u t : σ} {l : List (Call × Option Rep)} (h : Runs V u l t) :
    ∀ x ∈ l, x.2.isSome = V.wants x.1 := by
  induction h with
  | nil => intro x hx; cases hx
  | snoc _ hs ih =>
    intro x hx
    rcases List.mem_append.mp hx with hx | hx
    · exact ih x hx
    · rw [List.mem_singleton.mp hx]
      exact V.serve_wants hs

/-- The order in which the requests were queued linearizes the history, and continues the
    order in which the server has served them so far. -/
theorem linearizable {s : St σ Call Rep L cap rcap} (h : Reach V P s) :
    ∃ (l : List (Req Call × Option Rep)) (t : σ), s.log <+: l ∧ Linear V s.hist l t := by
  have hi := ids h
  have ho := hold h
  have hh := hist h
  obtain ⟨l', t, hq, hr⟩ := hh.runs.extend s.q.buf
  have hord : (s.log ++ l').map (·.1) = ord s := by rw [List.map_append, hq, ord]
  have hops : (s.log ++ l').map (fun x => x.1.op) = ops s := by rw [ops, ← hord, List.map_map]; rfl
  rw [← List.map_append] at hr
  refine ⟨s.log ++ l', t, List.prefix_append _ _, hr, by rw [hops]; exact ho.nodup, ?_, ?_, ?_, ?_⟩
  · intro x hx
    exact hh.begun x.1 (hi.ord x.1 (by rw [← hord]; exact List.mem_map_of_mem hx))
  · intro c op v hv
    obtain ⟨r, hr', hwho, e, hw, ha⟩ := hh.ret c op v hv
    cases hs : v.isSome with
    | true =>
      obtain ⟨x, hx, h1, h2⟩ := ha hs
      have hwho' := (hi.op_inj (hi.log x hx) (hi.ord r hr') (h1.trans e.symm)).1
      exact ⟨x, List.mem_append_left _ hx, hwho'.trans hwho, h1, h2⟩
    | false =>
      -- a call that wants no answer: its place in the run has none
      rw [← hord] at hr'
      obtain ⟨x, hx, rfl⟩ := List.mem_map.mp hr'
      have hx' := hr.wants (x.1.call, x.2) (List.mem_map.mpr ⟨x, hx, rfl⟩)
      simp only [← hw, hs, Option.isSome_eq_false_iff, Option.isNone_iff_eq_none] at hx'
      simp only [Option.isSome_eq_false_iff, Option.isNone_iff_eq_none] at hs
      exact ⟨x, hx, hwho, e, by rw [hx', hs]⟩
  · rw [hops]; exact hh.realTime
  · intro c op call op' call' hb hm
    rw [hops] at hm ⊢
    obtain ⟨v, hv⟩ := hh.program c op call op' call' hb
    exact hh.realTime c op v c op' call' hv hm

/-- A queued request was served with the answer on its one-shot. -/
theorem answered {s : St σ Call Rep L cap rcap} (h : Reach V P s) {r : Req Call} (hr : r ∈ ord s) {v : Rep}
    (hv : s.one r.tx = some v) : (r, some v) ∈ s.log := by
  have hi := ids h
  have ho := hold h
  obtain ⟨r', hr', x, hx, hop, hans⟩ := ho.one r.tx v hv
  have hk := hi.ord r hr
  rw [Known, hr', Option.some.injEq] at hk
  subst hk
  have hx' : x.1 ∈ ord s := List.mem_append_left _ (List.mem_map_of_mem hx)
  have : x.1 = r' := List.inj_on_of_nodup_map ho.nodup hx' hr hop
  rw [← this, ← hans]
  exact hx

/-- A call that wants no answer has returned once it is queued, served or not. -/
theorem posted {s : St σ Call Rep L cap rcap} (h : Reach V P s) :
    ∀ r ∈ ord s, V.wants r.call = false → .ret r.who r.op none ∈ s.hist := by
  refine h.inv (P := fun s => ∀ r ∈ ord s, V.wants r.call = false → .ret r.who r.op none ∈ s.hist) ?_ ?_
  · intro s hs r hr
    subst hs
    cases hr
  · intro s t hr ih ⟨a, hs⟩
    have hsend : ∀ {r} {q' : Chan cap (Req Call)}, s.q.send r = some q' →
        ∀ x ∈ s.log.map (·.1) ++ q'.buf, x ∈ ord s ∨ x = r := by
      intro r q' hq x hx
      rw [Chan.send_eq_some.mp hq, ← List.append_assoc] at hx
      exact (List.mem_append.mp hx).imp_right List.mem_singleton.mp
    cases hs with
    | begin c call _ _ _ => exact fun r hm hw => List.mem_append_left _ (ih r hm hw)
    | push c r q' _ _ hw hq =>
      intro x hx hxw
      rcases hsend hq x hx with hx | rfl
      · exact ih x hx hxw
      · rw [hw] at hxw
        cases hxw
    | post c r q' hpc _ _ hq =>
      intro x hx hxw
      rcases hsend hq x hx with hx | rfl
      · exact List.mem_append_left _ (ih x hx hxw)
      · rw [((ids hr).pc c x (Or.inl hpc)).2.1]
        exact List.mem_append_right _ List.mem_cons_self
    | recv c r v _ _ => exact fun r hm hw => List.mem_append_left _ (ih r hm hw)
    | serve r q' u v hq _ =>
      intro x hx hxw
      rw [ord_serve hq rfl] at hx
      exact ih x hx hxw
    | forward r r' q' hrel hq =>
      -- the relay's request is a waiting client's, which wants an answer
      intro x hx hxw
      rcases hsend hq x hx with hx | rfl
      · exact ih x hx hxw
      · have hin : InRelay s r := Or.inr ⟨x, Or.inl hrel⟩
        have hcall := ((ids hr).relay r x (Or.inl hrel)).2.2.2.2.1
        have hw := ((hold hr).wait _ r ((hold hr).inRelay r hin).1).1
        rw [hcall, hw] at hxw
        cases hxw
    | _ => exact ih

/-- A relayed call in the mailbox is the one the relay waits on. -/
theorem relay_q {s : St σ Call Rep L cap rcap} (h : Reach V P s) :
    ∀ r ∈ s.q.buf, P.direct r.who = false → ∃ r0, s.relay = .waiting r0 r := by
  refine h.inv (P := fun s => ∀ r ∈ s.q.buf, P.direct r.who = false → ∃ r0, s.relay = .waiting r0 r) ?_ ?_
  · intro s hs r hr
    subst hs
    cases hr
  · intro s t hr ih ⟨a, hs⟩
    have hsend : ∀ {c r} {q' : Chan cap (Req Call)}, s.pc c = .sending r → P.direct c = true → s.q.send r = some q' →
        ∀ x ∈ q'.buf, P.direct x.who = false → ∃ r0, s.relay = .waiting r0 x := by
      intro c r q' hpc hd hq x hx hxd
      rcases (mem_send hq).mp hx with hx | rfl
      · exact ih x hx hxd
      · rw [((ids hr).pc c x (Or.inl hpc)).2.1, hd] at hxd
        cases hxd
    cases hs with
    | push c r q' hpc hd _ hq => exact hsend hpc hd hq
    | post c r q' hpc hd _ hq => exact hsend hpc hd hq
    | serve r q' u v hq _ => exact fun x hx hxd => ih x ((mem_recv hq).mpr (Or.inr hx)) hxd
    | take r q' hrel _ =>
      intro x hx hxd
      obtain ⟨r0, h0⟩ := ih x hx hxd
      rw [hrel] at h0
      cases h0
    | forward r r' q' hrel hq =>
      intro x hx hxd
      rcases (mem_send hq).mp hx with hx | rfl
      · obtain ⟨r0, h0⟩ := ih x hx hxd
        rw [hrel] at h0
        cases h0
      · exact ⟨r, rfl⟩
    | answer r r' v hrel hv =>
      -- what the relay waited on is answered, so it is not queued any more
      intro x hx hxd
      obtain ⟨r0, h0⟩ := ih x hx hxd
      rw [hrel] at h0
      injection h0 with _ hxr
      rw [hxr] at hv
      have hx' : x.op ∈ s.log.map (·.1.op) :=
        List.mem_map.mpr ⟨_, answered hr (List.mem_append_right _ hx) hv, rfl⟩
      have hnd := (hold hr).nodup
      rw [ops, ord, List.map_append, List.map_map] at hnd
      exact absurd rfl ((List.nodup_append.mp hnd).2.2 _ hx' _ (List.mem_map_of_mem hx))
    | _ => exact ih

/-! ## A task that waits is not stuck -/

theorem exists_serve {s : St σ Call Rep L cap rcap} (h : s.q.buf ≠ []) : ∃ t, Step V P .server s t := by
  obtain ⟨r, q', hq⟩ := s.q.exists_recv h
  obtain ⟨u, v, hsv⟩ := V.serve_total s.srv r.call
  exact ⟨_, .serve r q' u v hq hsv⟩

/-- The relay in a call of its own can go on, or the server can. -/
theorem relay_progress {s : St σ Call Rep L cap rcap} (hr : Reach V P s) (hcap : 0 < cap) (h : s.relay ≠ .idle) :
    (∃ t, Step V P .relay s t) ∨ ∃ t, Step V P .server s t := by
  cases hrel : s.relay with
  | idle => exact absurd hrel h
  | sending r r' =>
    rcases s.q.room_or_ne_nil hcap with hroom | hne
    · obtain ⟨q', hq⟩ := s.q.exists_send r' hroom
      exact Or.inl ⟨_, .forward r r' q' hrel hq⟩
    · exact Or.inr (exists_serve hne)
  | waiting r r' =>
    rcases (hold hr).relayWait r r' hrel with hq | ⟨v, hv⟩
    · exact Or.inr (exists_serve (List.ne_nil_of_mem hq))
    · exact Or.inl ⟨_, .answer r r' v hrel hv⟩

theorem rq_progress {s : St σ Call Rep L cap rcap} (hr : Reach V P s) (hcap : 0 < cap) (h : s.rq.buf ≠ []) :
    (∃ t, Step V P .relay s t) ∨ ∃ t, Step V P .server s t := by
  by_cases hrel : s.relay = .idle
  · obtain ⟨r, q', hq⟩ := s.rq.exists_recv h
    exact Or.inl ⟨_, .take r q' hrel hq⟩
  · exact relay_progress hr hcap hrel

/-- A client in a call can go on, or a task on the way of its answer can. -/
theorem client_progress {s : St σ Call Rep L cap rcap} (hr : Reach V P s) (hcap : 0 < cap) (hrcap : 0 < rcap) {c : Nat}
    (h : s.pc c ≠ .idle) :
    (∃ t, Step V P (.client c) s t) ∨ (∃ t, Step V P .relay s t) ∨ ∃ t, Step V P .server s t := by
  cases hpc : s.pc c with
  | idle => exact absurd hpc h
  | sending r =>
    cases hd : P.direct c with
    | true =>
      rcases s.q.room_or_ne_nil hcap with hroom | hne
      · obtain ⟨q', hq⟩ := s.q.exists_send r hroom
        left
        cases hw : V.wants r.call with
        | true => exact ⟨_, .push c r q' hpc hd hw hq⟩
        | false => exact ⟨_, .post c r q' hpc hd hw hq⟩
      · exact Or.inr (Or.inr (exists_serve hne))
    | false =>
      rcases s.rq.room_or_ne_nil hrcap with hroom | hne
      · obtain ⟨q', hq⟩ := s.rq.exists_send r hroom
        exact Or.inl ⟨_, .ask c r q' hpc hd hq⟩
      · exact Or.inr (rq_progress hr hcap hne)
  | waiting r =>
    rcases ((hold hr).wait c r hpc).2 with ⟨-, hq⟩ | ⟨-, hrel⟩ | ⟨v, hv⟩
    · exact Or.inr (Or.inr (exists_serve (List.ne_nil_of_mem hq)))
    · rcases hrel with hq | ⟨r', hr'⟩
      · exact Or.inr (rq_progress hr hcap (List.ne_nil_of_mem hq))
      · refine Or.inr (relay_progress hr hcap ?_)
        rcases hr' with hr' | hr' <;> rw [hr'] <;> intro e <;> cases e
    · exact Or.inl ⟨_, .recv c r v hpc hv⟩

/-! ## One call, begun, served and returned at once -/

variable (P) in
/-- From `s` to `t` client `c` has made one call, and the server has served it. -/
structure Called (c : Nat) (call : Call) (u : σ) (v : Option Rep) (s t : St σ Call Rep L cap rcap) : Prop where
  srv : t.srv = u
  q : t.q.buf = []
  rq : t.rq = s.rq
  relay : t.relay = s.relay
  pc : t.pc = s.pc
  loc : t.loc = update s.loc c (P.ret c (s.loc c) call v)
  issued : t.issued = s.issued ++ [⟨c, s.issued.length, call, s.issued.length⟩]
  hist : t.hist = s.hist ++ [.inv c s.issued.length call, .ret c s.issued.length v]
  log : t.log = s.log ++ [(⟨c, s.issued.length, call, s.issued.length⟩, v)]

/-- An idle direct client may make a call of its program, on an empty mailbox, and the
    server serve it: only the two move, so what they keep holds after it. -/
theorem round_of {R : St σ Call Rep L cap rcap → Prop} {s : St σ Call Rep L cap rcap} {c : Nat}
    (hR : ∀ a x y, R x → a = .server ∨ (a = .client c ∧ x.loc = s.loc) → Step V P a x y → R y) (h : R s) (hcap : 0 < cap)
    (hq : s.q.buf = []) (hpc : s.pc c = .idle) (hd : P.direct c = true) {call : Call} (hc : P.call c (s.loc c) call)
    {u : σ} {v : Option Rep} (hsv : V.serve s.srv call u v) : ∃ t, R t ∧ Called P c call u v s t := by
  have hw := V.serve_wants hsv
  have hb := hR _ _ _ h (Or.inr ⟨rfl, rfl⟩) (.begin c call hpc hc (by simp [hd]))
  have hroom : s.q.buf.length < cap := by rw [hq]; exact hcap
  obtain ⟨q1, h1⟩ := s.q.exists_send ⟨c, s.issued.length, call, s.issued.length⟩ hroom
  have hq1 : q1.buf = [⟨c, s.issued.length, call, s.issued.length⟩] := by rw [Chan.send_eq_some.mp h1, hq]; rfl
  have h2 : q1.recv = some (⟨c, s.issued.length, call, s.issued.length⟩, s.q) := by rw [Chan.recv_eq_some, hq1, hq]
  have hidle : ∀ p, update (update s.pc c p) c Pc.idle = s.pc := by
    intro p
    rw [Function.update_idem, ← hpc, Function.update_eq_self]
  cases v with
  | none =>
    have hp := hR _ _ _ hb (Or.inr ⟨rfl, rfl⟩) (.post c _ q1 (Function.update_self _ _ _) hd hw.symm h1)
    exact ⟨_, hR _ _ _ hp (Or.inl rfl) (.serve _ s.q u none h2 hsv), rfl, hq, rfl, rfl, hidle _, rfl, rfl, by simp, rfl⟩
  | some v =>
    have hp := hR _ _ _ hb (Or.inr ⟨rfl, rfl⟩) (.push c _ q1 (Function.update_self _ _ _) hd hw.symm h1)
    have hs := hR _ _ _ hp (Or.inl rfl) (.serve _ s.q u (some v) h2 hsv)
    have hr := hR _ _ _ hs (Or.inr ⟨rfl, rfl⟩) (.recv c _ v (Function.update_self _ _ _) (Function.update_self _ _ _))
    refine ⟨_, hr, rfl, hq, rfl, rfl, ?_, rfl, rfl, by simp, rfl⟩
    show update (update (update s.pc c _) c _) c Pc.idle = s.pc
    rw [Function.update_idem]
    exact hidle _

theorem round {s : St σ Call Rep L cap rcap} (h : Reach V P s) (hcap : 0 < cap) (hq : s.q.buf = []) {c : Nat}
    (hpc : s.pc c = .idle) (hd : P.direct c = true) {call : Call} (hc : P.call c (s.loc c) call) {u : σ} {v : Option Rep}
    (hsv : V.serve s.srv call u v) : ∃ t, Reach V P t ∧ Called P c call u v s t :=
  round_of (fun a _ _ hx _ hs => hx.step ⟨a, hs⟩) h hcap hq hpc hd hc hsv

end FabricRs.Mailbox

/-
  FabricRs.Lib.Mailbox — a server task behind a bounded mailbox, and its clients.

  The server owns a state `σ` and takes requests off one FIFO mailbox, one at a time. A
  client runs a program of its own (`Prog`): it may take a local step, or begin a call. A
  call that wants an answer carries a fresh one-shot channel; the client waits on it. A
  call that wants none returns as soon as it is queued, before the server has seen it.

  A client with `direct c = false` calls through a relay: it queues its request in the
  relay's own mailbox, the relay takes one request at a time, makes the same call with a
  one-shot of its own, waits for the answer and passes it on.

  A one-shot channel is named by its position in `issued`, the list of all requests ever
  made (`tx`); a call is named by the position of the request its caller made (`op`), so
  the relay's request has the `op` of the one it serves. `hist` (calls begun and
  returned), `issued` and `log` (requests served, with their answers) only record what
  happened: no step looks at them but to name the next request.
-/

import Mathlib.Logic.Function.Basic
import FabricRs.Lib.Lts

namespace FabricRs.Mailbox

open Lts (Chan)
open Function (update)

variable {σ Call Rep L : Type} {cap rcap : Nat}

/-- What a server may do with a call: a new state and, for a call that wants one, an answer. -/
structure Server (σ Call Rep : Type) where
  init : σ
  wants : Call → Bool
  serve : σ → Call → σ → Option Rep → Prop
  serve_wants : ∀ {s c t r}, serve s c t r → r.isSome = wants c
  serve_total : ∀ s c, ∃ t r, serve s c t r

/-- The clients' programs over their local states `L`. -/
structure Prog (Call Rep L : Type) where
  init : Nat → L
  direct : Nat → Bool
  tau : Nat → L → L → Prop
  /-- The calls a client may begin in a local state. -/
  call : Nat → L → Call → Prop
  /-- A client's local state once a call has returned. -/
  ret : Nat → L → Call → Option Rep → L

structure Req (Call : Type) where
  who : Nat
  op : Nat
  call : Call
  tx : Nat
  deriving DecidableEq

inductive Pc (Call : Type) where
  | idle
  /-- Waits for a free slot of a mailbox. -/
  | sending (r : Req Call)
  /-- Waits for the answer on the one-shot `r.tx`. -/
  | waiting (r : Req Call)

/-- The relay: `r` is the request it serves, `r'` its own. -/
inductive RPc (Call : Type) where
  | idle
  | sending (r r' : Req Call)
  | waiting (r r' : Req Call)

inductive Ev (Call Rep : Type) where
  | inv (who op : Nat) (call : Call)
  | ret (who op : Nat) (rep : Option Rep)

structure St (σ Call Rep L : Type) (cap rcap : Nat) where
  srv : σ
  q : Chan cap (Req Call)
  rq : Chan rcap (Req Call)
  relay : RPc Call
  pc : Nat → Pc Call
  loc : Nat → L
  one : Nat → Option Rep
  issued : List (Req Call)
  hist : List (Ev Call Rep)
  log : List (Req Call × Option Rep)

inductive Agent where
  | client (c : Nat)
  | server
  | relay

variable (V : Server σ Call Rep) (P : Prog Call Rep L)

def init : St σ Call Rep L cap rcap :=
  ⟨V.init, .empty, .empty, .idle, fun _ => .idle, P.init, fun _ => none, [], [], []⟩

inductive Step : Agent → St σ Call Rep L cap rcap → St σ Call Rep L cap rcap → Prop
  | tau {s} (c : Nat) (l : L) : s.pc c = .idle → P.tau c (s.loc c) l →
      Step (.client c) s { s with loc := update s.loc c l }
  | begin {s} (c : Nat) (call : Call) : s.pc c = .idle → P.call c (s.loc c) call →
      (P.direct c = false → V.wants call = true) →
      Step (.client c) s { s with
        pc := update s.pc c (.sending ⟨c, s.issued.length, call, s.issued.length⟩)
        issued := s.issued ++ [⟨c, s.issued.length, call, s.issued.length⟩]
        hist := s.hist ++ [.inv c s.issued.length call] }
  | push {s} (c : Nat) (r : Req Call) (q' : Chan cap (Req Call)) : s.pc c = .sending r → P.direct c = true →
      V.wants r.call = true → s.q.send r = some q' →
      Step (.client c) s { s with q := q', pc := update s.pc c (.waiting r) }
  /-- A call that wants no answer returns once it is queued. -/
  | post {s} (c : Nat) (r : Req Call) (q' : Chan cap (Req Call)) : s.pc c = .sending r → P.direct c = true →
      V.wants r.call = false → s.q.send r = some q' →
      Step (.client c) s { s with
        q := q'
        pc := update s.pc c .idle
        loc := update s.loc c (P.ret c (s.loc c) r.call none)
        hist := s.hist ++ [.ret c r.op none] }
  | ask {s} (c : Nat) (r : Req Call) (q' : Chan rcap (Req Call)) : s.pc c = .sending r → P.direct c = false →
      s.rq.send r = some q' → Step (.client c) s { s with rq := q', pc := update s.pc c (.waiting r) }
  | recv {s} (c : Nat) (r : Req Call) (v : Rep) : s.pc c = .waiting r → s.one r.tx = some v →
      Step (.client c) s { s with
        pc := update s.pc c .idle
        loc := update s.loc c (P.ret c (s.loc c) r.call (some v))
        hist := s.hist ++ [.ret c r.op (some v)] }
  | serve {s} (r : Req Call) (q' : Chan cap (Req Call)) (t : σ) (v : Option Rep) : s.q.recv = some (r, q') →
      V.serve s.srv r.call t v →
      Step .server s { s with
        srv := t
        q := q'
        one := if v.isSome then update s.one r.tx v else s.one
        log := s.log ++ [(r, v)] }
  | take {s} (r : Req Call) (q' : Chan rcap (Req Call)) : s.relay = .idle → s.rq.recv = some (r, q') →
      Step .relay s { s with
        rq := q'
        relay := .sending r ⟨r.who, r.op, r.call, s.issued.length⟩
        issued := s.issued ++ [⟨r.who, r.op, r.call, s.issued.length⟩] }
  | forward {s} (r r' : Req Call) (q' : Chan cap (Req Call)) : s.relay = .sending r r' → s.q.send r' = some q' →
      Step .relay s { s with q := q', relay := .waiting r r' }
  | answer {s} (r r' : Req Call) (v : Rep) : s.relay = .waiting r r' → s.one r'.tx = some v →
      Step .relay s { s with relay := .idle, one := update s.one r.tx (some v) }

/-- The reachable states, whichever task moves. -/
abbrev Reach (s : St σ Call Rep L cap rcap) : Prop :=
  Lts.Reach (· = init V P) (fun s t => ∃ a, Step V P a s t) s

/-- The requests queued so far, in the order they were queued: the served ones, then the
    mailbox. This is the total order of the calls. -/
def ord (s : St σ Call Rep L cap rcap) : List (Req Call) := s.log.map (·.1) ++ s.q.buf

/-- The server, started at `s`, may serve the calls of `l` with those answers and end at `t`. -/
inductive Runs : σ → List (Call × Option Rep) → σ → Prop
  | nil (s : σ) : Runs s [] s
  | snoc {s t u : σ} {l : List (Call × Option Rep)} {c : Call} {r : Option Rep} :
      Runs s l t → V.serve t c u r → Runs s (l ++ [(c, r)]) u

/-- A request that was made, and is the one its one-shot names. -/
def Known (issued : List (Req Call)) (r : Req Call) : Prop := issued[r.tx]? = some r

/-- The call `op` was served with answer `v`. -/
def Answered (log : List (Req Call × Option Rep)) (op : Nat) (v : Option Rep) : Prop :=
  ∃ x ∈ log, x.1.op = op ∧ x.2 = v

/-- `a` comes before `b` in `l`. -/
def Before {α : Type} (l : List α) (a b : α) : Prop := [a, b].Sublist l

/-- `l`, calls with answers, is a linearization of the history `hist`, ending with the
    server in state `t`: a sequential run of the server that has every returned call once
    with the answer it returned, and only begun calls, in an order that extends the order
    in which one call returned before another began and the order of each client's calls. -/
structure Linear (V : Server σ Call Rep) (hist : List (Ev Call Rep)) (l : List (Req Call × Option Rep)) (t : σ) :
    Prop where
  runs : Runs V V.init (l.map fun x => (x.1.call, x.2)) t
  once : (l.map fun x => x.1.op).Nodup
  begun : ∀ x ∈ l, .inv x.1.who x.1.op x.1.call ∈ hist
  returned : ∀ c op v, .ret c op v ∈ hist → ∃ x ∈ l, x.1.who = c ∧ x.1.op = op ∧ x.2 = v
  realTime : ∀ c op v c' op' call, Before hist (.ret c op v) (.inv c' op' call) → op' ∈ l.map (fun x => x.1.op) →
    Before (l.map fun x => x.1.op) op op'
  program : ∀ c op call op' call', Before hist (.inv c op call) (.inv c op' call') →
    op' ∈ l.map (fun x => x.1.op) → Before (l.map fun x => x.1.op) op op'

end FabricRs.Mailbox

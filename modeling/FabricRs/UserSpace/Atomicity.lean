/-
  FabricRs.UserSpace.Atomicity — `disco_handler`s side by side over clones of one
  `StateClient`.

  The clients of the State actor are tasks of three kinds: a handling task takes frames,
  any it likes, and runs `disco_handler` on each in turn; another `StateClient` makes the
  calls `foreign` allows; a `CliClient` lists. A handler reads a neighbor and writes back
  its own copy in two commands, so a write between the two is lost.

  `Act.run` is one handler or one foreign call alone at the table, `alone` a list of them
  one at a time. `Undisturbed` says of the order in which the actor took the commands that
  no write of a neighbor stands between a handler's get and add of it.

  - `inv`: each add queued by a handler follows that handler's get of the key and writes
    back what the get was answered, with the hello's interface added.
  - `serial`: undisturbed handlers have left what they would have left one at a time, in
    the order of their adds.
-/

import Mathlib.Data.List.Forall2
import FabricRs.UserSpace.Handler

namespace FabricRs.UserSpace

open State
open Mailbox (Prog Req Runs Reach Step Agent Known ord)
open Lts (Chan)
open Function (update)

/-! ## The tasks -/

inductive Kind where
  | handler
  | stateClient
  | cliClient
  deriving DecidableEq

structure TaskState where
  /-- The frames a handling task has taken. -/
  seen : List Frame
  handler : Handler

variable (interfaces : Interfaces) (kind : Nat → Kind) (foreign : StateCommand → Prop)

def program : Prog StateCommand Reply TaskState where
  init _ := ⟨[], .idle⟩
  direct c := kind c ≠ .cliClient
  tau c l l' := kind c = .handler ∧ l.handler = .idle ∧ ∃ f, l' = ⟨l.seen ++ [f], .start (hello interfaces f)⟩
  call c l cmd := match kind c with
    | .handler => l.handler.call = some cmd
    | .stateClient => foreign cmd
    | .cliClient => ∃ tt, cmd = .list tt
  ret c l _ r := match kind c with
    | .handler => ⟨l.seen, l.handler.ret r⟩
    | _ => l

abbrev Sys := Mailbox.St Tables StateCommand Reply TaskState stateCap cliCap

section program

variable {interfaces kind foreign} {c : Nat} {l : TaskState} {cmd : StateCommand} {v : Option Reply}

@[simp] theorem program_direct : (program interfaces kind foreign).direct c = decide (kind c ≠ .cliClient) := rfl

theorem program_call_handler (hk : kind c = .handler) :
    (program interfaces kind foreign).call c l cmd ↔ l.handler.call = some cmd := by
  unfold program
  simp only [hk]

theorem program_call_stateClient (hk : kind c = .stateClient) : (program interfaces kind foreign).call c l cmd ↔ foreign cmd := by
  unfold program
  simp only [hk]

theorem program_call_cliClient (hk : kind c = .cliClient) :
    (program interfaces kind foreign).call c l cmd ↔ ∃ tt, cmd = .list tt := by
  unfold program
  simp only [hk]

theorem program_ret_handler (hk : kind c = .handler) :
    (program interfaces kind foreign).ret c l cmd v = ⟨l.seen, l.handler.ret v⟩ := by
  unfold program
  simp only [hk]

theorem program_ret_client (hk : kind c ≠ .handler) : (program interfaces kind foreign).ret c l cmd v = l := by
  unfold program
  cases hc : kind c with
  | handler => exact absurd hc hk
  | stateClient => simp only [hc]
  | cliClient => simp only [hc]

end program

/-- What a kind of task calls. -/
def Calls (c : Nat) (cmd : StateCommand) : Prop :=
  match kind c with
  | .handler => (∃ id, cmd = .get (.neighbor id)) ∨ ∃ id n, cmd = .add (.neighbor id n)
  | .stateClient => foreign cmd
  | .cliClient => ∃ tt, cmd = .list tt

theorem program_calls (c : Nat) (l : TaskState) (cmd : StateCommand) (h : (program interfaces kind foreign).call c l cmd) :
    Calls kind foreign c cmd := by
  unfold Calls
  cases hk : kind c with
  | handler =>
    rw [program_call_handler hk] at h
    cases hh : l.handler with
    | idle => simp [hh, Handler.call] at h
    | get id ni => exact Or.inl ⟨id, by simpa [hh, Handler.call] using h.symm⟩
    | add id n => exact Or.inr ⟨id, n, by simpa [hh, Handler.call] using h.symm⟩
    | panicked => simp [hh, Handler.call] at h
  | stateClient => exact (program_call_stateClient hk).mp h
  | cliClient => exact (program_call_cliClient hk).mp h

/-! ## One at a time -/

/-- A handler's whole turn, or another task's write. -/
inductive Act where
  | hello (who : Nat) (id : U32) (neighborInterface : NeighborInterface)
  | call (who : Nat) (cmd : StateCommand)

namespace Act

def run (t : NeighborTable) : Act → NeighborTable
  | hello _ id ni => hear t id ni
  | call _ cmd => cmd.onNeighbors t

def helloOf (c : Nat) : Act → Option (U32 × NeighborInterface)
  | hello who id ni => if who = c then some (id, ni) else none
  | call _ _ => none

def callOf (c : Nat) : Act → Option StateCommand
  | hello _ _ _ => none
  | call who cmd => if who = c then some cmd else none

theorem mem_helloOf {acts : List Act} {c : Nat} {id : U32} {ni : NeighborInterface} :
    (id, ni) ∈ acts.filterMap (helloOf c) ↔ hello c id ni ∈ acts := by
  rw [List.mem_filterMap]
  refine ⟨fun ⟨a, ha, h⟩ => ?_, fun h => ?_⟩
  · cases a with
    | hello who id' ni' =>
      simp only [helloOf, Option.ite_none_right_eq_some, Option.some.injEq, Prod.mk.injEq] at h
      obtain ⟨rfl, rfl, rfl⟩ := h
      exact ha
    | call who cmd => cases h
  · exact ⟨_, h, if_pos rfl⟩

end Act

def alone (acts : List Act) : NeighborTable := acts.foldl Act.run .new

theorem alone_snoc (acts : List Act) (a : Act) : alone (acts ++ [a]) = a.run (alone acts) := by
  simp [alone]

/-! ## The commands in the order the actor takes them -/

/-- The requests that write the neighbor table. -/
def writesOf (l : List (Req StateCommand)) : List (Req StateCommand) := l.filter (·.call.writesNeighbors)

abbrev Log := List (Req StateCommand × Option Reply)

/-- The last request of task `c` in `l` is a get of `id`, answered `o`. -/
def Got (log : Log) (c : Nat) (id : U32) (o : Option Neighbor) (l : List (Req StateCommand)) : Prop :=
  ∃ a g b, l = a ++ g :: b ∧ (∀ x ∈ b, x.who ≠ c) ∧ g.who = c ∧ g.call = .get (.neighbor id) ∧
    (g, some (.value (o.map .neighbor))) ∈ log

/-- The act a queued write is the last step of. -/
def Matches (s : Sys) : Act → Req StateCommand → Prop
  | .hello c id ni, r => kind c = .handler ∧ r.who = c ∧ ∃ l d o, ord s = l ++ r :: d ∧ Got s.log c id o l ∧
      r.call = .add (.neighbor id ((o.getD .new).addInterface ni))
  | .call c cmd, r => kind c ≠ .handler ∧ r.who = c ∧ r.call = cmd

/-- Where a handling task stands, when `acts` are the turns finished so far. -/
inductive At (s : Sys) (acts : List Act) (c : Nat) : Prop
  | idle : (s.loc c).handler = .idle → s.pc c = .idle →
      acts.filterMap (Act.helloOf c) = (s.loc c).seen.filterMap (hello interfaces) → At s acts c
  | get (fs : List Frame) (f : Frame) (id : U32) (ni : NeighborInterface) : (s.loc c).seen = fs ++ [f] →
      hello interfaces f = some (id, ni) → acts.filterMap (Act.helloOf c) = fs.filterMap (hello interfaces) →
      (s.loc c).handler = .get id ni →
      (∀ r, s.pc c = .sending r ∨ s.pc c = .waiting r → r.call = .get (.neighbor id)) →
      (∀ r, s.pc c = .waiting r → ∃ a b, ord s = a ++ r :: b ∧ ∀ x ∈ b, x.who ≠ c) → At s acts c
  | add (fs : List Frame) (f : Frame) (id : U32) (ni : NeighborInterface) (o : Option Neighbor) :
      (s.loc c).seen = fs ++ [f] → hello interfaces f = some (id, ni) →
      acts.filterMap (Act.helloOf c) = fs.filterMap (hello interfaces) →
      (s.loc c).handler = .add id ((o.getD .new).addInterface ni) → Got s.log c id o (ord s) →
      (∀ r, s.pc c = .sending r ∨ s.pc c = .waiting r →
        r.call = .add (.neighbor id ((o.getD .new).addInterface ni))) → At s acts c

/-- Every queued write is a step of an act, and every handling task stands somewhere. -/
def Inv (s : Sys) : Prop :=
  ∃ acts, List.Forall₂ (Matches kind s) acts (writesOf (ord s)) ∧ ∀ c, kind c = .handler → At interfaces s acts c

variable {interfaces kind foreign}

theorem Got.mono {log log' : Log} {c : Nat} {id : U32} {o : Option Neighbor} {l : List (Req StateCommand)}
    (h : Got log c id o l) (l' : List (Req StateCommand)) (hlog : log <+: log') (hl : ∀ x ∈ l', x.who ≠ c) :
    Got log' c id o (l ++ l') := by
  obtain ⟨a, g, b, rfl, hb, hw, hc, hg⟩ := h
  refine ⟨a, g, b ++ l', by simp, fun x hx => ?_, hw, hc, hlog.mem hg⟩
  rcases List.mem_append.mp hx with hx | hx
  · exact hb x hx
  · exact hl x hx

theorem Matches.mono {s t : Sys} {l : List (Req StateCommand)} (hord : ord t = ord s ++ l) (hlog : s.log <+: t.log) (a : Act)
    (r : Req StateCommand) (h : Matches kind s a r) : Matches kind t a r := by
  cases a with
  | hello c id ni =>
    obtain ⟨hk, hw, l', d, o, he, hg, hc⟩ := h
    refine ⟨hk, hw, l', d ++ l, o, by rw [hord, he]; simp, ?_, hc⟩
    simpa using hg.mono [] hlog (by simp)
  | call c cmd => exact h

/-- Other tasks' steps leave a handling task where it stands. -/
theorem At.mono {s t : Sys} {acts as : List Act} {c : Nat} {l : List (Req StateCommand)} (h : At interfaces s acts c)
    (hloc : t.loc c = s.loc c) (hpc : t.pc c = s.pc c) (hord : ord t = ord s ++ l) (hl : ∀ x ∈ l, x.who ≠ c)
    (hlog : s.log <+: t.log) (has : ∀ a ∈ as, a.helloOf c = none) : At interfaces t (acts ++ as) c := by
  have ha : (acts ++ as).filterMap (Act.helloOf c) = acts.filterMap (Act.helloOf c) := by
    rw [List.filterMap_append, List.filterMap_eq_nil_iff.mpr has, List.append_nil]
  cases h with
  | idle hh hp he => exact .idle (by rw [hloc, hh]) (by rw [hpc, hp]) (by rw [ha, he, hloc])
  | get fs f id ni hs hf he hh hc hq =>
    refine .get fs f id ni (by rw [hloc, hs]) hf (by rw [ha, he]) (by rw [hloc, hh]) (by rw [hpc]; exact hc) ?_
    intro r hr
    rw [hpc] at hr
    obtain ⟨a, b, hab, hb⟩ := hq r hr
    refine ⟨a, b ++ l, by rw [hord, hab]; simp, fun x hx => ?_⟩
    rcases List.mem_append.mp hx with hx | hx
    · exact hb x hx
    · exact hl x hx
  | add fs f id ni o hs hf he hh hg hc =>
    refine .add fs f id ni o (by rw [hloc, hs]) hf (by rw [ha, he]) (by rw [hloc, hh]) ?_ (by rw [hpc]; exact hc)
    rw [hord]
    exact hg.mono l hlog hl

/-- A step of task `c`: it queues `l`, which finishes `as`, and no other task moves. -/
theorem Inv.step {s t : Sys} {acts : List Act} (hf : List.Forall₂ (Matches kind s) acts (writesOf (ord s)))
    (ha : ∀ c, kind c = .handler → At interfaces s acts c) (c : Nat) (l : List (Req StateCommand)) (as : List Act)
    (hord : ord t = ord s ++ l) (hlog : s.log <+: t.log) (hm : List.Forall₂ (Matches kind t) as (writesOf l))
    (hl : ∀ x ∈ l, x.who = c) (hmove : ∀ d, d ≠ c → t.loc d = s.loc d ∧ t.pc d = s.pc d)
    (has : ∀ a ∈ as, ∀ d, d ≠ c → a.helloOf d = none)
    (hat : kind c = .handler → At interfaces s acts c → At interfaces t (acts ++ as) c) :
    Inv interfaces kind t := by
  refine ⟨acts ++ as, ?_, fun d hd => ?_⟩
  · unfold writesOf at hf hm ⊢
    rw [hord, List.filter_append]
    exact List.rel_append (hf.imp (Matches.mono hord hlog)) hm
  · by_cases e : d = c
    · subst e
      exact hat hd (ha d hd)
    · obtain ⟨h1, h2⟩ := hmove d e
      exact (ha d hd).mono h1 h2 hord (fun x hx => by rw [hl x hx]; exact fun e' => e e'.symm) hlog fun a ha => has a ha d e

/-- A step that queues nothing and moves no task. -/
theorem Inv.quiet {s t : Sys} (h : Inv interfaces kind s) (hord : ord t = ord s) (hlog : s.log <+: t.log)
    (hloc : t.loc = s.loc) (hpc : t.pc = s.pc) : Inv interfaces kind t := by
  have hord' : ord t = ord s ++ [] := by rw [hord, List.append_nil]
  obtain ⟨acts, hf, ha⟩ := h
  refine Inv.step hf ha 0 [] [] hord' hlog .nil (by simp) (fun d _ => ⟨by rw [hloc], by rw [hpc]⟩) (by simp)
    fun _ ha => ?_
  exact ha.mono (by rw [hloc]) (by rw [hpc]) hord' (by simp) hlog (by simp)

/-! ## One step -/

theorem inv_init (lpmTrie : LpmTrie) :
    Inv interfaces kind (Mailbox.init (server lpmTrie) (program interfaces kind foreign)) := by
  refine ⟨[], ?_, fun c _ => .idle rfl rfl rfl⟩
  show List.Forall₂ _ [] (writesOf (ord _))
  simp [writesOf, ord, Mailbox.init]

section Steps

variable {lpmTrie : LpmTrie} {s t : Sys}

theorem tau_inv (h : Inv interfaces kind s) {c : Nat} {l : TaskState} (hpc : s.pc c = .idle)
    (htau : (program interfaces kind foreign).tau c (s.loc c) l) :
    Inv interfaces kind { s with loc := update s.loc c l } := by
  obtain ⟨-, hidle, f, rfl⟩ := htau
  obtain ⟨acts, hf, ha⟩ := h
  refine Inv.step hf ha c [] [] (by simp [ord]) (List.prefix_refl _) .nil (by simp)
    (fun d hd => ⟨Function.update_of_ne hd _ _, rfl⟩) (by simp) fun _ ha => ?_
  rw [List.append_nil]
  cases ha with
  | idle _ _ he =>
    cases hf : hello interfaces f with
    | none =>
      refine .idle (by simp only [Function.update_self]; rfl) hpc ?_
      simp only [Function.update_self, List.filterMap_append, he]
      simp [hf]
    | some x =>
      refine .get (s.loc c).seen f x.1 x.2 (by simp) hf he (by simp only [Function.update_self]; rfl) ?_ ?_
      · intro r hr
        simp only [hpc, reduceCtorEq, or_self] at hr
      · intro r hr
        simp only [hpc, reduceCtorEq] at hr
  | get fs g id ni _ _ _ hh _ _ => rw [hidle] at hh; cases hh
  | add fs g id ni o _ _ _ hh _ _ => rw [hidle] at hh; cases hh

theorem begin_inv (h : Inv interfaces kind s) {c : Nat} {call : StateCommand} {r : Req StateCommand} (hr : r.call = call)
    (hcall : (program interfaces kind foreign).call c (s.loc c) call) (hpc : t.pc = update s.pc c (.sending r))
    (hord : ord t = ord s) (hlog : t.log = s.log) (hloc : t.loc = s.loc) : Inv interfaces kind t := by
  have hpc' : t.pc c = .sending r := by rw [hpc, Function.update_self]
  obtain ⟨acts, hf, ha⟩ := h
  refine Inv.step hf ha c [] [] (by rw [hord, List.append_nil]) (by rw [hlog]) .nil (by simp)
    (fun d hd => ⟨by rw [hloc], by rw [hpc, Function.update_of_ne hd]⟩) (by simp) fun hk ha => ?_
  rw [List.append_nil]
  rw [program_call_handler hk] at hcall
  cases ha with
  | idle hh _ _ => simp [hh, Handler.call] at hcall
  | get fs f id ni hs hf he hh _ _ =>
    refine .get fs f id ni (by rw [hloc, hs]) hf he (by rw [hloc, hh]) (fun r' hr' => ?_) (fun r' hr' => ?_)
    · simp only [hpc', Mailbox.Pc.sending.injEq, reduceCtorEq, or_false] at hr'
      rw [← hr', hr]
      simpa [hh, Handler.call] using hcall.symm
    · simp only [hpc', reduceCtorEq] at hr'
  | add fs f id ni o hs hf he hh hg _ =>
    refine .add fs f id ni o (by rw [hloc, hs]) hf he (by rw [hloc, hh]) (by rw [hord, hlog]; exact hg) fun r' hr' => ?_
    simp only [hpc', Mailbox.Pc.sending.injEq, reduceCtorEq, or_false] at hr'
    rw [← hr', hr]
    simpa [hh, Handler.call] using hcall.symm

/-- A command that wants an answer is queued: no write. -/
theorem push_inv (h : Inv interfaces kind s) {c : Nat} {r : Req StateCommand} (hpc : s.pc c = .sending r)
    (hw : r.call.wants = true) (hwho : r.who = c) (hord : ord t = ord s ++ [r]) (hlog : t.log = s.log) (hloc : t.loc = s.loc)
    (hpct : t.pc = update s.pc c (.waiting r)) : Inv interfaces kind t := by
  have hpc' : t.pc c = .waiting r := by rw [hpct, Function.update_self]
  have hnw : r.call.writesNeighbors = false := writesNeighbors_of_wants hw
  obtain ⟨acts, hf, ha⟩ := h
  refine Inv.step hf ha c [r] [] hord (by rw [hlog]) (by simp [writesOf, hnw]) (by simpa using hwho)
    (fun d hd => ⟨by rw [hloc], by rw [hpct, Function.update_of_ne hd]⟩) (by simp) fun hk ha => ?_
  rw [List.append_nil]
  cases ha with
  | idle _ hp _ => rw [hpc] at hp; cases hp
  | get fs f id ni hs hf he hh hc _ =>
    refine .get fs f id ni (by rw [hloc, hs]) hf he (by rw [hloc, hh]) (fun r' hr' => ?_) (fun r' hr' => ?_)
    · simp only [hpc', reduceCtorEq, Mailbox.Pc.waiting.injEq, false_or] at hr'
      rw [← hr']
      exact hc r (Or.inl hpc)
    · simp only [hpc', Mailbox.Pc.waiting.injEq] at hr'
      subst hr'
      exact ⟨ord s, [], hord, by simp⟩
  | add fs f id ni o hs hf he hh hg hc =>
    rw [hc r (Or.inl hpc)] at hw
    cases hw

/-- A command that wants none is queued: a handler's add ends its turn. -/
theorem post_inv (h : Inv interfaces kind s) {c : Nat} {r : Req StateCommand} (hpc : s.pc c = .sending r)
    (hw : r.call.wants = false) (hwho : r.who = c) (hord : ord t = ord s ++ [r]) (hlog : t.log = s.log)
    (hloc : t.loc = update s.loc c ((program interfaces kind foreign).ret c (s.loc c) r.call none))
    (hpct : t.pc = update s.pc c .idle) : Inv interfaces kind t := by
  have hmove : ∀ d, d ≠ c → t.loc d = s.loc d ∧ t.pc d = s.pc d := fun d hd =>
    ⟨by rw [hloc, Function.update_of_ne hd], by rw [hpct, Function.update_of_ne hd]⟩
  obtain ⟨acts, hf, ha⟩ := h
  by_cases hk : kind c = .handler
  · have hloc' : t.loc c = ⟨(s.loc c).seen, (s.loc c).handler.ret none⟩ := by
      rw [hloc, Function.update_self, program_ret_handler hk]
    cases ha c hk with
    | idle _ hp _ => rw [hpc] at hp; cases hp
    | get fs f id ni hs hf he hh hc _ =>
      rw [hc r (Or.inl hpc)] at hw
      cases hw
    | add fs f id ni o hs hfr he hh hg hc =>
      have hcall := hc r (Or.inl hpc)
      have hone : List.Forall₂ (Matches kind t) [.hello c id ni] (writesOf [r]) := by
        simp only [writesOf, hcall, StateCommand.writesNeighbors, List.filter_cons_of_pos, List.filter_nil,
          List.forall₂_cons, List.Forall₂.nil, and_true]
        exact ⟨hk, hwho, ord s, [], o, hord, by rw [hlog]; exact hg, hcall⟩
      refine Inv.step hf ha c [r] [.hello c id ni] hord (by rw [hlog]) hone (by simpa using hwho) hmove ?_ fun _ _ => ?_
      · intro a ha d hd
        rw [List.mem_singleton.mp ha]
        exact if_neg (Ne.symm hd)
      · refine .idle (by rw [hloc', hh]; rfl) (by rw [hpct, Function.update_self]) ?_
        rw [hloc', List.filterMap_append, he]
        simp [hs, hfr, Act.helloOf]
  · -- a foreign command: its own act, if it writes neighbors
    cases hn : r.call.writesNeighbors with
    | false =>
      exact Inv.step hf ha c [r] [] hord (by rw [hlog]) (by simp [writesOf, hn]) (by simpa using hwho) hmove (by simp)
        fun h => absurd h hk
    | true =>
      refine Inv.step hf ha c [r] [.call c r.call] hord (by rw [hlog]) ?_ (by simpa using hwho) hmove ?_ fun h => absurd h hk
      · simp only [writesOf, hn, List.filter_cons_of_pos, List.filter_nil, List.forall₂_cons, List.Forall₂.nil, and_true]
        exact ⟨hk, hwho, rfl⟩
      · intro a ha d _
        rw [List.mem_singleton.mp ha]
        rfl

/-- The answer of a get comes back. -/
theorem recv_inv (hr : Reach (server lpmTrie) (program interfaces kind foreign) s) (h : Inv interfaces kind s) {c : Nat}
    {r : Req StateCommand} {v : Reply} (hpc : s.pc c = .waiting r) (hone : s.one r.tx = some v) (hord : ord t = ord s)
    (hlog : t.log = s.log)
    (hloc : t.loc = update s.loc c ((program interfaces kind foreign).ret c (s.loc c) r.call (some v)))
    (hpct : t.pc = update s.pc c .idle) : Inv interfaces kind t := by
  have hidle : t.pc c = .idle := by rw [hpct, Function.update_self]
  obtain ⟨acts, hf, ha⟩ := h
  refine Inv.step hf ha c [] [] (by rw [hord, List.append_nil]) (by rw [hlog]) .nil (by simp) (fun d hd => ⟨?_, ?_⟩) (by simp)
    fun hk ha => ?_
  · rw [hloc, Function.update_of_ne hd]
  · rw [hpct, Function.update_of_ne hd]
  have hloc' : t.loc c = ⟨(s.loc c).seen, (s.loc c).handler.ret (some v)⟩ := by
    rw [hloc, Function.update_self, program_ret_handler hk]
  rw [List.append_nil]
  cases ha with
  | idle _ hp _ => rw [hpc] at hp; cases hp
  | get fs f id ni hs hf he hh hc hq =>
    obtain ⟨a, b, hab, hb⟩ := hq r hpc
    have hmem : (r, some v) ∈ s.log := Mailbox.answered hr (by rw [hab]; simp) hone
    obtain ⟨o, rfl⟩ : ∃ o : Option Neighbor, v = .value (o.map .neighbor) := by
      obtain ⟨l1, l2, hl⟩ := List.append_of_mem hmem
      have hruns := (Mailbox.hist hr).runs
      rw [hl, List.map_append, List.map_cons] at hruns
      obtain ⟨u, w, -, hsv⟩ := hruns.split
      rw [hc r (Or.inr hpc)] at hsv
      exact ⟨_, Option.some.inj (serve_get_neighbor hsv)⟩
    refine .add fs f id ni o (by rw [hloc', hs]) hf he (by rw [hloc', hh]; exact Handler.ret_get id ni o) ?_ ?_
    · rw [hord, hlog]
      exact ⟨a, r, b, hab, hb, ((Mailbox.ids hr).pc c r (Or.inr hpc)).2.1, hc r (Or.inr hpc), hmem⟩
    · intro r' hr'
      simp only [hidle, reduceCtorEq, or_self] at hr'
  | add fs f id ni o hs hf he hh hg hc =>
    have hw := ((Mailbox.hold hr).wait c r hpc).1
    have hw' : r.call.wants = true := hw
    rw [hc r (Or.inr hpc)] at hw'
    cases hw'

end Steps

theorem step_inv {lpmTrie : LpmTrie} {a : Agent} {s t : Sys}
    (hr : Reach (server lpmTrie) (program interfaces kind foreign) s) (h : Inv interfaces kind s)
    (hs : Step (server lpmTrie) (program interfaces kind foreign) a s t) : Inv interfaces kind t := by
  have hi := Mailbox.ids hr
  cases hs with
  | tau c l hpc htau => exact tau_inv h hpc htau
  | begin c call hpc hcall _ => exact begin_inv h rfl hcall rfl rfl rfl rfl
  | push c r q' hpc hd hw hq =>
    exact push_inv h hpc hw (hi.pc c r (Or.inl hpc)).2.1 (Mailbox.ord_send hq rfl) rfl rfl rfl
  | post c r q' hpc hd hw hq =>
    exact post_inv h hpc hw (hi.pc c r (Or.inl hpc)).2.1 (Mailbox.ord_send hq rfl) rfl rfl rfl
  | ask c r q' hpc hd _ =>
    -- a `CliClient` moves: no handling task does
    obtain ⟨acts, hf, ha⟩ := h
    have hk : kind c = .cliClient := by simpa using hd
    refine Inv.step hf ha c [] [] (by simp [ord]) (List.prefix_refl _) .nil (by simp)
      (fun d hd => ⟨rfl, Function.update_of_ne hd _ _⟩) (by simp) fun h => ?_
    rw [hk] at h
    cases h
  | recv c r v hpc hone => exact recv_inv hr h hpc hone rfl rfl rfl rfl
  | serve r q' u v hq hsv => exact h.quiet (Mailbox.ord_serve hq rfl) (List.prefix_append _ _) rfl rfl
  | take r q' _ hq => exact h.quiet rfl (List.prefix_refl _) rfl rfl
  | forward r r' q' hrel hq =>
    -- the relay queues a `CliClient`'s list
    obtain ⟨acts, hf, ha⟩ := h
    obtain ⟨hk, hk', hwho, -, -, -⟩ := hi.relay r r' (Or.inl hrel)
    have hcli := ((Mailbox.hold hr).inRelay r (Or.inr ⟨r', Or.inl hrel⟩)).2.1
    have hkind : kind r'.who = .cliClient := by rw [hwho]; simpa using hcli
    have hc := Mailbox.calls (program_calls interfaces kind foreign) hr r' hk'
    unfold Calls at hc
    simp only [hkind] at hc
    obtain ⟨tt, hc⟩ := hc
    refine Inv.step hf ha r'.who [r'] [] (Mailbox.ord_send hq rfl) (List.prefix_refl _)
      (by simp [writesOf, hc, StateCommand.writesNeighbors]) (by simp) (fun d _ => ⟨rfl, rfl⟩) (by simp) fun h => ?_
    rw [hkind] at h
    cases h
  | answer r r' v _ _ => exact h.quiet rfl (List.prefix_refl _) rfl rfl

theorem inv {lpmTrie : LpmTrie} {s : Sys} (h : Reach (server lpmTrie) (program interfaces kind foreign) s) :
    Inv interfaces kind s :=
  h.inv (fun _ e => e ▸ inv_init lpmTrie) fun _ _ hr hi ⟨_, hs⟩ => step_inv hr hi hs

/-! ## The neighbor table along the log -/

def neighborsAfter (cs : List StateCommand) : NeighborTable := cs.foldl StateCommand.onNeighbors .new

theorem neighborsAfter_snoc (cs : List StateCommand) (c : StateCommand) :
    neighborsAfter (cs ++ [c]) = c.onNeighbors (neighborsAfter cs) := by
  simp [neighborsAfter]

theorem runs_nt {lpmTrie : LpmTrie} {l : List (StateCommand × Option Reply)} {s : Tables}
    (h : Runs (server lpmTrie) (Tables.new lpmTrie) l s) : s.nt = neighborsAfter (l.map (·.1)) := by
  generalize h0 : Tables.new lpmTrie = s0 at h
  induction h with
  | nil => rw [← h0]; rfl
  | snoc _ hs ih => rw [List.map_append, List.map_singleton, neighborsAfter_snoc, serve_nt hs, ih]

/-- Commands that do not write a neighbor leave it as it was. -/
theorem lookup_neighborsAfter {cs ds : List StateCommand} {id : U32} (h : ∀ c ∈ ds, ¬ c.Writes (.neighbor id)) :
    (neighborsAfter (cs ++ ds)).entries.lookup id = (neighborsAfter cs).entries.lookup id := by
  induction ds using List.reverseRecOn with
  | nil => rw [List.append_nil]
  | append_singleton ds d ih =>
    rw [← List.append_assoc, neighborsAfter_snoc, lookup_onNeighbors (h d (by simp)),
      ih fun c hc => h c (List.mem_append_left _ hc)]

/-- In the order `l` no neighbor is written between a handler's get and add of it. -/
def Undisturbed (kind : Nat → Kind) (l : List (Req StateCommand)) : Prop :=
  ∀ a g b r d id n, l = a ++ g :: b ++ r :: d → kind r.who = .handler → g.who = r.who → (∀ x ∈ b, x.who ≠ r.who) →
    g.call = .get (.neighbor id) → r.call = .add (.neighbor id n) → ∀ x ∈ b, ¬ x.call.Writes (.neighbor id)

/-- It is so if no two tasks write the same neighbor. -/
theorem undisturbed_of_apart {l : List (Req StateCommand)} (owner : U32 → Nat)
    (h : ∀ r ∈ l, ∀ id, r.call.Writes (.neighbor id) → r.who = owner id) : Undisturbed kind l := by
  intro a g b r d id n hl _ _ hb _ hadd x hx hw
  have hr : r.who = owner id := h r (by rw [hl]; simp) id (Or.inr ⟨_, hadd, rfl⟩)
  exact hb x hx ((h x (by rw [hl]; simp [hx]) id hw).trans hr.symm)

/-- The commands served, in order. -/
def served (s : Sys) : List (Req StateCommand) := s.log.map (·.1)

theorem served_of_log {s t : Sys} {r : Req StateCommand} {v : Option Reply} (h : t.log = s.log ++ [(r, v)]) :
    served t = served s ++ [r] := by
  rw [served, h, List.map_append]
  rfl

/-- What an answered get was answered. -/
theorem get_answer {lpmTrie : LpmTrie} {s : Sys} (hr : Reach (server lpmTrie) (program interfaces kind foreign) s)
    {a b : List (Req StateCommand)} {g : Req StateCommand} (hl : served s = a ++ g :: b) {id : U32} {o : Option Neighbor}
    (hc : g.call = .get (.neighbor id)) (hg : (g, some (.value (o.map .neighbor))) ∈ s.log) :
    o = (neighborsAfter (a.map (·.call))).entries.lookup id := by
  obtain ⟨la, l', hlog, rfl, hl'⟩ := List.map_eq_append_iff.mp hl
  obtain ⟨x, lb, rfl, rfl, rfl⟩ := List.map_eq_cons_iff.mp hl'
  have hx : x ∈ s.log := by rw [hlog]; simp
  -- one request for a call: the answer in the log is this one
  have hnd : ((s.log).map fun x => x.1.op).Nodup := by
    have := (Mailbox.hold hr).nodup
    rw [Mailbox.ops, ord, List.map_append, List.map_map] at this
    exact (List.nodup_append.mp this).1
  have hxa : x = (x.1, some (.value (o.map .neighbor))) := List.inj_on_of_nodup_map hnd hx hg rfl
  have hruns := (Mailbox.hist hr).runs
  rw [hlog, List.map_append, List.map_cons] at hruns
  obtain ⟨u, w, hu, hsv⟩ := hruns.split
  have hnt := runs_nt hu
  rw [hc] at hsv
  have hans := serve_get_neighbor hsv
  rw [congrArg Prod.snd hxa] at hans
  simp only [Option.some.injEq, Reply.value.injEq] at hans
  have hinj : Function.Injective Value.neighbor := fun a b h => by injection h
  rw [hnt, List.map_map] at hans
  have := Option.map_injective hinj hans
  rw [this, List.map_map]
  rfl

/-! ## Undisturbed handlers -/

/-- A list without repetition has one place for a value. -/
theorem cut_unique {α : Type} {l l' m m' : List α} {a : α} (hn : (l ++ a :: m).Nodup) (e : l ++ a :: m = l' ++ a :: m') :
    l = l' := by
  induction l generalizing l' with
  | nil =>
    cases l' with
    | nil => rfl
    | cons b l' =>
      obtain ⟨rfl, rfl⟩ := List.cons.inj e
      simp at hn
  | cons b l ih =>
    cases l' with
    | nil =>
      obtain ⟨rfl, rfl⟩ := List.cons.inj e
      simp at hn
    | cons b' l' =>
      obtain ⟨rfl, e'⟩ := List.cons.inj e
      rw [ih (List.nodup_cons.mp hn).2 e']

theorem writesOf_snoc (l : List (Req StateCommand)) (r : Req StateCommand) :
    writesOf (l ++ [r]) = writesOf l ++ if r.call.writesNeighbors then [r] else [] := by
  unfold writesOf
  rw [List.filter_append, List.filter_cons, List.filter_nil]

/-- A handler's add makes of the table what its whole turn would have, at that moment. -/
theorem add_alone {lpmTrie : LpmTrie} {s : Sys} (hr : Reach (server lpmTrie) (program interfaces kind foreign) s)
    (hu : Undisturbed kind (served s)) {l rest : List (Req StateCommand)} {r : Req StateCommand}
    (hl : served s = l ++ r :: rest) {a : Act} (hm : Matches kind s a r) :
    r.call.onNeighbors (neighborsAfter (l.map (·.call))) = a.run (neighborsAfter (l.map (·.call))) := by
  cases a with
  | call c cmd =>
    obtain ⟨-, -, hc⟩ := hm
    rw [hc]
    rfl
  | hello c id ni =>
    obtain ⟨hk, hw, l', d, o, hord, ⟨x, g, y, rfl, hy, hgw, hgc, hans⟩, hc⟩ := hm
    have hord' : ord s = l ++ r :: (rest ++ s.q.buf) := by
      show served s ++ s.q.buf = _
      rw [hl, List.append_assoc, List.cons_append]
    have hnd : (ord s).Nodup := List.Nodup.of_map _ (Mailbox.hold hr).nodup
    have he : l = x ++ g :: y := cut_unique (hord' ▸ hnd) (hord'.symm.trans hord)
    subst he
    have hsv : served s = x ++ g :: (y ++ r :: rest) := by rw [hl, List.append_assoc, List.cons_append]
    have hquiet := hu x g y r rest id _ hl (by rw [hw]; exact hk) (by rw [hgw, hw]) (by rw [hw]; exact hy) hgc hc
    -- the answer of the get is still what the table holds
    have ho : o = (neighborsAfter ((x ++ g :: y).map (·.call))).entries.lookup id := by
      rw [get_answer hr hsv hgc hans, List.map_append, lookup_neighborsAfter]
      intro cmd hcmd
      rw [List.map_cons] at hcmd
      rcases List.mem_cons.mp hcmd with rfl | hcmd
      · rw [hgc]
        simp [StateCommand.Writes]
      · obtain ⟨z, hz, rfl⟩ := List.mem_map.mp hcmd
        exact hquiet z hz
    rw [hc, ho]
    rfl

theorem alone_prefix {lpmTrie : LpmTrie} {s : Sys} (hr : Reach (server lpmTrie) (program interfaces kind foreign) s)
    (hu : Undisturbed kind (served s)) (l rest : List (Req StateCommand)) (hl : served s = l ++ rest) {acts : List Act}
    (hm : List.Forall₂ (Matches kind s) acts (writesOf l)) : neighborsAfter (l.map (·.call)) = alone acts := by
  induction l using List.reverseRecOn generalizing rest acts with
  | nil =>
    cases hm
    rfl
  | append_singleton l r ih =>
    have hl' : served s = l ++ r :: rest := by rw [hl, List.append_assoc]; rfl
    rw [writesOf_snoc] at hm
    rw [List.map_append, List.map_singleton, neighborsAfter_snoc]
    cases hn : r.call.writesNeighbors with
    | false =>
      rw [hn, if_neg (by decide), List.append_nil] at hm
      rw [onNeighbors_of_not_writes hn, ih _ hl' hm]
    | true =>
      rw [hn, if_pos rfl] at hm
      have h1 := List.forall₂_take_append _ _ _ hm
      obtain ⟨a, u, ha, hu', hacts⟩ := List.forall₂_cons_right_iff.mp (List.forall₂_drop_append _ _ _ hm)
      rw [List.forall₂_nil_right_iff.mp hu'] at hacts
      rw [← List.take_append_drop (writesOf l).length acts, hacts, alone_snoc, ← ih _ hl' h1]
      exact add_alone hr hu hl' ha

theorem helloOf_matches {s : Sys} {acts : List Act} {l : List (Req StateCommand)} (h : List.Forall₂ (Matches kind s) acts l)
    {c : Nat} (hc : kind c ≠ .handler ∨ ∀ x ∈ l, x.who ≠ c) : acts.filterMap (Act.helloOf c) = [] := by
  rw [List.filterMap_eq_nil_iff]
  intro a ha
  induction h with
  | nil => cases ha
  | cons hm _ ih =>
    rcases List.mem_cons.mp ha with rfl | ha
    · cases a with
      | hello d id ni =>
        obtain ⟨hk, hw, -⟩ := hm
        refine if_neg ?_
        rintro rfl
        rcases hc with hc | hc
        · exact hc hk
        · exact hc _ List.mem_cons_self hw
      | call d cmd => rfl
    · exact ih (hc.imp_right fun h x hx => h x (List.mem_cons_of_mem _ hx)) ha

theorem callOf_matches {s : Sys} {acts : List Act} {l : List (Req StateCommand)} (h : List.Forall₂ (Matches kind s) acts l)
    (c : Nat) : acts.filterMap (Act.callOf c) = if kind c = .handler then [] else (l.filter (·.who = c)).map (·.call) := by
  induction h with
  | nil => simp
  | @cons a r acts l hm _ ih =>
    cases a with
    | hello d id ni =>
      obtain ⟨hk, rfl, -⟩ := hm
      rw [List.filterMap_cons, Act.callOf, ih, List.filter_cons]
      by_cases e : r.who = c
      · rw [← e, if_pos hk, if_pos hk]
      · simp [e]
    | call d cmd =>
      obtain ⟨hk, rfl, rfl⟩ := hm
      rw [List.filterMap_cons, Act.callOf, ih, List.filter_cons]
      by_cases e : r.who = c
      · rw [← e]
        simp [hk]
      · simp [e]

/-- What undisturbed handlers leave, at any moment: some of their turns, each handler's in
    its order, the writes of others between them. A handler that waits for nothing has
    finished the turns of all its frames. -/
theorem serial {lpmTrie : LpmTrie} {s : Sys} (hr : Reach (server lpmTrie) (program interfaces kind foreign) s)
    (hu : Undisturbed kind (served s)) :
    ∃ acts, s.srv.nt = alone acts ∧
      (∀ c, acts.filterMap (Act.callOf c) =
        if kind c = .handler then [] else ((writesOf (served s)).filter (·.who = c)).map (·.call)) ∧
      (∀ c, kind c ≠ .handler → acts.filterMap (Act.helloOf c) = []) ∧
      ∀ c, kind c = .handler → acts.filterMap (Act.helloOf c) <+: (s.loc c).seen.filterMap (hello interfaces) ∧
        ((s.loc c).handler = .idle → (∀ x ∈ s.q.buf, x.who ≠ c) →
          acts.filterMap (Act.helloOf c) = (s.loc c).seen.filterMap (hello interfaces)) := by
  obtain ⟨acts, hm, hat⟩ := inv hr
  have hord : writesOf (ord s) = writesOf (served s) ++ writesOf s.q.buf := List.filter_append _ _
  rw [hord] at hm
  have h1 := List.forall₂_take_append _ _ _ hm
  have h2 := List.forall₂_drop_append _ _ _ hm
  have hsplit : ∀ c, (acts.take (writesOf (served s)).length).filterMap (Act.helloOf c) ++
      (acts.drop (writesOf (served s)).length).filterMap (Act.helloOf c) = acts.filterMap (Act.helloOf c) := by
    intro c
    rw [← List.filterMap_append, List.take_append_drop]
  have hnt : s.srv.nt = neighborsAfter ((served s).map (·.call)) := by
    rw [runs_nt (Mailbox.hist hr).runs, served, List.map_map, List.map_map]
    rfl
  refine ⟨acts.take (writesOf (served s)).length, ?_, callOf_matches h1, fun c hc => helloOf_matches h1 (Or.inl hc), ?_⟩
  · rw [hnt]
    exact alone_prefix hr hu (served s) [] (by rw [List.append_nil]) h1
  · intro c hk
    have hall : acts.filterMap (Act.helloOf c) <+: (s.loc c).seen.filterMap (hello interfaces) := by
      cases hat c hk with
      | idle _ _ he => rw [he]
      | get fs f id ni hs _ he _ _ _ => rw [he, hs, List.filterMap_append]; exact List.prefix_append _ _
      | add fs f id ni o hs _ he _ _ _ => rw [he, hs, List.filterMap_append]; exact List.prefix_append _ _
    refine ⟨List.IsPrefix.trans ⟨_, hsplit c⟩ hall, fun hidle hq => ?_⟩
    have hnil : (acts.drop (writesOf (served s)).length).filterMap (Act.helloOf c) = [] :=
      helloOf_matches h2 (Or.inr fun x hx => hq x (List.mem_of_mem_filter hx))
    have he := hsplit c
    rw [hnil, List.append_nil] at he
    rw [he]
    cases hat c hk with
    | idle _ _ he => exact he
    | get fs f id ni _ _ _ hh _ _ => rw [hidle] at hh; cases hh
    | add fs f id ni o _ _ _ hh _ _ => rw [hidle] at hh; cases hh

/-! ## Turns without interruption -/

section Turns

variable {lpmTrie : LpmTrie} {R : Sys → Prop} {s : Sys} {c : Nat}

variable (interfaces kind foreign lpmTrie) in
/-- `R` is kept by the actor, and by what task `c` does with a frame in its hand. -/
def Keeps (R : Sys → Prop) (c : Nat) : Prop :=
  ∀ a x y, R x → a = .server ∨ (a = .client c ∧ (x.loc c).handler ≠ .idle) →
    Step (server lpmTrie) (program interfaces kind foreign) a x y → R y

theorem reach_keeps (c : Nat) :
    Keeps interfaces kind foreign lpmTrie (Reach (server lpmTrie) (program interfaces kind foreign)) c :=
  fun a _ _ hx _ hs => hx.step ⟨a, hs⟩

/-- From `s` to `t` the handler of task `c` has made one call, served by the actor, and is
    now at `h`. -/
structure Turn (c : Nat) (cmd : StateCommand) (h : Handler) (s t : Sys) : Prop where
  q : t.q.buf = []
  rq : t.rq = s.rq
  relay : t.relay = s.relay
  pc : t.pc = s.pc
  loc : t.loc = update s.loc c ⟨(s.loc c).seen, h⟩
  log : s.log <+: t.log
  served : served t = served s ++ [⟨c, s.issued.length, cmd, s.issued.length⟩]

theorem take_turn (hr : Reach (server lpmTrie) (program interfaces kind foreign) s) (hk : kind c = .handler)
    (hpc : s.pc c = .idle) (hh : (s.loc c).handler = .idle) (f : Frame) :
    Reach (server lpmTrie) (program interfaces kind foreign)
      { s with loc := update s.loc c ⟨(s.loc c).seen ++ [f], .start (hello interfaces f)⟩ } :=
  hr.step ⟨_, .tau c _ hpc ⟨hk, hh, f, rfl⟩⟩

/-- A handler makes its next call, and the actor serves it. -/
theorem call_turn (hR : Keeps interfaces kind foreign lpmTrie R c) (hr : R s) (hk : kind c = .handler)
    (hq : s.q.buf = []) (hpc : s.pc c = .idle) {cmd : StateCommand} (hc : (s.loc c).handler.call = some cmd)
    {u : Tables} {v : Option Reply} (hsv : Serve s.srv cmd u v) :
    ∃ t, R t ∧ t.srv = u ∧ Turn c cmd ((s.loc c).handler.ret v) s t := by
  have hdir : (program interfaces kind foreign).direct c = true := by simp [hk]
  have hbusy : (s.loc c).handler ≠ .idle := fun hi => by rw [hi] at hc; cases hc
  obtain ⟨t, ht, h⟩ := Mailbox.round_of
    (fun a x y hx ha hs => hR a x y hx (ha.imp_right fun ⟨ha, hl⟩ => ⟨ha, by rw [hl]; exact hbusy⟩) hs) hr (by decide) hq hpc
    hdir ((program_call_handler hk).mpr hc) hsv
  refine ⟨t, ht, h.srv, h.q, h.rq, h.relay, h.pc, ?_, by rw [h.log]; exact List.prefix_append _ _, served_of_log h.log⟩
  rw [h.loc, program_ret_handler hk]

theorem get_turn (hR : Keeps interfaces kind foreign lpmTrie R c) (hr : R s) (hk : kind c = .handler)
    (hq : s.q.buf = []) (hpc : s.pc c = .idle) {id : U32} {ni : NeighborInterface} (hh : (s.loc c).handler = .get id ni) :
    ∃ t, R t ∧ t.srv = s.srv ∧
      Turn c (.get (.neighbor id)) (.add id (((s.srv.nt.entries.lookup id).getD .new).addInterface ni)) s t := by
  obtain ⟨t, ht, hsrv, h⟩ := call_turn hR hr hk hq hpc (by rw [hh]; rfl) (Serve.get s.srv (.neighbor id))
  rw [hh, get_neighbor, Handler.ret_get] at h
  exact ⟨t, ht, hsrv, h⟩

theorem add_turn (hR : Keeps interfaces kind foreign lpmTrie R c) (hr : R s) (hk : kind c = .handler)
    (hq : s.q.buf = []) (hpc : s.pc c = .idle) {id : U32} {n : Neighbor} (hh : (s.loc c).handler = .add id n) :
    ∃ t, R t ∧ t.srv.nt = ⟨s.srv.nt.entries.insert id n⟩ ∧ Turn c (.add (.neighbor id n)) .idle s t := by
  obtain ⟨t, ht, hsrv, h⟩ := call_turn hR hr hk hq hpc (by rw [hh]; rfl) (Serve.add s.srv (.neighbor id n))
  rw [hh] at h
  exact ⟨t, ht, by rw [hsrv]; rfl, h⟩

/-- From `s` to `t` task `c` is done with the frame `f` it had taken. -/
structure Handled (interfaces : Interfaces) (c : Nat) (f : Frame) (s t : Sys) : Prop where
  nt : t.srv.nt = receive interfaces s.srv.nt f
  q : t.q.buf = []
  rq : t.rq = s.rq
  relay : t.relay = s.relay
  pc : t.pc = s.pc
  loc : t.loc = update s.loc c ⟨(s.loc c).seen, .idle⟩
  log : s.log <+: t.log

/-- On an empty mailbox a frame that was taken can be handled to the end. -/
theorem handle_turn (hR : Keeps interfaces kind foreign lpmTrie R c) (hr : R s) (hk : kind c = .handler)
    (hq : s.q.buf = []) (hpc : s.pc c = .idle) {f : Frame} (hh : (s.loc c).handler = .start (hello interfaces f)) :
    ∃ t, R t ∧ Handled interfaces c f s t := by
  cases hf : hello interfaces f with
  | none =>
    have hidle : (s.loc c).handler = .idle := by rw [hh, hf]; rfl
    refine ⟨s, hr, by rw [receive, hf], hq, rfl, rfl, rfl, ?_, List.prefix_refl _⟩
    rw [← hidle, Function.update_eq_self]
  | some x =>
    have hstart : (s.loc c).handler = .get x.1 x.2 := by rw [hh, hf]; rfl
    obtain ⟨t, ht, hsrv, hget⟩ := get_turn hR hr hk hq hpc hstart
    obtain ⟨u, hu, hnt, hend⟩ :=
      add_turn hR ht hk hget.q (by rw [hget.pc]; exact hpc) (by rw [hget.loc, Function.update_self])
    refine ⟨u, hu, ?_, hend.q, hend.rq.trans hget.rq, hend.relay.trans hget.relay, hend.pc.trans hget.pc, ?_,
      hget.log.trans hend.log⟩
    · rw [hnt, hsrv, receive, hf]
      rfl
    · rw [hend.loc, hget.loc, Function.update_self, Function.update_idem]

/-- Another `StateClient` makes a call, and the actor serves it. -/
theorem foreign_turn (hr : Reach (server lpmTrie) (program interfaces kind foreign) s) (hk : kind c = .stateClient)
    (hq : s.q.buf = []) (hpc : s.pc c = .idle) {cmd : StateCommand} (hc : foreign cmd) {u : Tables} {v : Option Reply}
    (hsv : Serve s.srv cmd u v) :
    ∃ t : Sys, Reach (server lpmTrie) (program interfaces kind foreign) t ∧ t.srv = u ∧ t.q.buf = [] ∧ t.pc = s.pc ∧
      t.loc = s.loc ∧ t.log = s.log ++ [(⟨c, s.issued.length, cmd, s.issued.length⟩, v)] := by
  have hclient : kind c ≠ .handler := by rw [hk]; nofun
  obtain ⟨t, ht, h⟩ :=
    Mailbox.round hr (by decide) hq hpc (by simp [hk]) ((program_call_stateClient hk).mpr hc) hsv
  exact ⟨t, ht, h.srv, h.q, h.pc, by rw [h.loc, program_ret_client hclient, Function.update_eq_self], h.log⟩

end Turns

/-! ## The end of a run -/

/-- No call is under way and none is left to serve. -/
structure Settled (s : Sys) : Prop where
  mailbox : s.q.buf = []
  idle : ∀ c, (s.loc c).handler = .idle

/-- `acts` are the turns of the frames the handlers took and the other tasks' writes, in
    some order that keeps each task's own. -/
structure Serial (interfaces : Interfaces) (kind : Nat → Kind) (s : Sys) (acts : List Act) : Prop where
  hellos : ∀ c, acts.filterMap (Act.helloOf c) =
    if kind c = .handler then (s.loc c).seen.filterMap (hello interfaces) else []
  calls : ∀ c, acts.filterMap (Act.callOf c) =
    if kind c = .handler then [] else ((writesOf (served s)).filter (·.who = c)).map (·.call)

/-- If no write of a neighbor stands between a handler's get and add of it, the table is
    the one the handlers and calls leave when run one at a time. -/
theorem undisturbed_handlers_atomic {lpmTrie : LpmTrie} {s : Sys}
    (hr : Reach (server lpmTrie) (program interfaces kind foreign) s) (hs : Settled s)
    (hu : Undisturbed kind (served s)) : ∃ acts, Serial interfaces kind s acts ∧ s.srv.nt = alone acts := by
  obtain ⟨acts, hnt, hcalls, hno, hhellos⟩ := serial hr hu
  refine ⟨acts, ⟨fun c => ?_, hcalls⟩, hnt⟩
  by_cases hk : kind c = .handler
  · rw [if_pos hk]
    exact (hhellos c hk).2 (hs.idle c) (by rw [hs.mailbox]; simp)
  · rw [if_neg hk]
    exact hno c hk

/-- With no call between them, no turn takes an entry away. -/
theorem entry_alone {acts : List Act} (hcall : ∀ c cmd, Act.call c cmd ∉ acts) {c : Nat} {id : U32}
    {ni : NeighborInterface} (h : Act.hello c id ni ∈ acts) : (entry (alone acts) id ni.neighborMac).isSome := by
  induction acts using List.reverseRecOn with
  | nil => cases h
  | append_singleton acts a ih =>
    rw [alone_snoc]
    cases a with
    | call d cmd => exact absurd (List.mem_append_right _ List.mem_cons_self) (hcall d cmd)
    | hello d id' ni' =>
      show (entry (hear _ id' ni') (id, ni.neighborMac).1 (id, ni.neighborMac).2).isSome
      rw [entry_hear]
      split
      · rfl
      · rename_i hne
        rcases List.mem_append.mp h with h | h
        · exact ih (fun e f hm => hcall e f (List.mem_append_left _ hm)) h
        · simp only [List.mem_singleton, Act.hello.injEq] at h
          obtain ⟨-, rfl, rfl⟩ := h
          exact absurd rfl hne

/-! ## A lost update -/

/-- A node with one interface, and two neighbors' interfaces: of one node, 7. -/
def eth1 : Interface := ⟨1, ⟨10, 0, 0, 1⟩, ⟨2, 0, 0, 0, 0, 1⟩⟩
def oneLink : Interfaces := Interfaces.empty.insert eth1
def mac1 : MacAddr := ⟨2, 0, 0, 0, 0, 11⟩
def mac2 : MacAddr := ⟨2, 0, 0, 0, 0, 12⟩
def heard (mac : MacAddr) : NeighborInterface := ⟨0x0a00000b, mac, eth1.ip.toU32, eth1.mac, eth1.ifidx⟩

theorem oneLink_eth1 : oneLink.get 1 = some eth1 := by
  rw [oneLink, Interfaces.get_insert]
  rfl

theorem hello_heard (id : U32) (mac : MacAddr) : hello oneLink (helloFrame 1 id 0x0a00000b mac) = some (id, heard mac) :=
  hello_of_wire (isHello_helloFrame _ _ _ _) oneLink_eth1

theorem receive_heard (t : NeighborTable) (id : U32) (mac : MacAddr) :
    receive oneLink t (helloFrame 1 id 0x0a00000b mac) = hear t id (heard mac) := by
  rw [receive, hello_heard]

/-- Two handling tasks, and `StateClient`s. -/
def twoHandlers (c : Nat) : Kind := if c < 2 then .handler else .stateClient

/-- Two hellos of one node, handled side by side: both handlers get the neighbor before
    either adds it, and the first one's interface is lost. No order of the two turns
    leaves that table. -/
theorem handlers_lose_update :
    ∃ s : Sys, Reach (server noRoutes) (program oneLink twoHandlers fun _ => False) s ∧ Settled s ∧
      (s.loc 0).seen = [helloFrame 1 7 0x0a00000b mac1] ∧ (s.loc 1).seen = [helloFrame 1 7 0x0a00000b mac2] ∧
      ∀ acts, Serial oneLink twoHandlers s acts → s.srv.nt ≠ alone acts := by
  have h0 : Reach (server noRoutes) (program oneLink twoHandlers fun _ => False)
      (Mailbox.init (server noRoutes) (program oneLink twoHandlers fun _ => False) : Sys) := .init rfl
  have h1 := take_turn h0 (c := 0) rfl rfl rfl (helloFrame 1 7 0x0a00000b mac1)
  have h2 := take_turn h1 (c := 1) rfl rfl rfl (helloFrame 1 7 0x0a00000b mac2)
  rw [hello_heard, hello_heard] at h2
  obtain ⟨s3, h3, hsrv3, t3⟩ := get_turn (reach_keeps 0) h2 rfl rfl rfl rfl
  obtain ⟨s4, h4, hsrv4, t4⟩ := get_turn (reach_keeps 1) h3 rfl t3.q (by rw [t3.pc]; rfl) (by rw [t3.loc]; rfl)
  obtain ⟨s5, h5, hnt5, t5⟩ := add_turn (reach_keeps 0) h4 rfl t4.q (by rw [t4.pc, t3.pc]; rfl) (by rw [t4.loc, t3.loc]; rfl)
  obtain ⟨s6, h6, hnt6, t6⟩ :=
    add_turn (reach_keeps 1) h5 rfl t5.q (by rw [t5.pc, t4.pc, t3.pc]; rfl) (by rw [t5.loc, t4.loc, t3.loc]; rfl)
  have hloc := t6.loc
  have hserved := t6.served
  rw [t5.loc, t4.loc, t3.loc] at hloc
  rw [t5.served, t4.served, t3.served] at hserved
  refine ⟨s6, h6, ⟨t6.q, fun c => ?_⟩, by rw [hloc]; rfl, by rw [hloc]; rfl, fun acts hacts he => ?_⟩
  · rw [hloc]
    by_cases e1 : c = 1
    · rw [e1]; rfl
    · rw [Function.update_of_ne e1]
      by_cases e0 : c = 0
      · rw [e0]; rfl
      · simp only [Function.update_of_ne e0, Function.update_of_ne e1]
        rfl
  · -- the first interface is gone
    have hnone : entry s6.srv.nt 7 mac1 = none := by
      unfold entry
      rw [hnt6, HashMap.lookup_insert, if_pos rfl, hsrv3, Option.bind_some, Neighbor.lookup_addInterface]
      rfl
    have hcall : ∀ c cmd, Act.call c cmd ∉ acts := by
      intro c cmd hm
      have hc : cmd ∈ acts.filterMap (Act.callOf c) := List.mem_filterMap.mpr ⟨_, hm, if_pos rfl⟩
      rw [hacts.calls c, hserved] at hc
      by_cases hk : twoHandlers c = .handler
      · rw [if_pos hk] at hc
        cases hc
      · have h2 : ¬ c < 2 := fun h => hk (if_pos h)
        have e0 : ¬ 0 = c := by omega
        have e1 : ¬ 1 = c := by omega
        simp [writesOf, served, Mailbox.init, StateCommand.writesNeighbors, e0, e1] at hc
    have hmem : Act.hello 0 7 (heard mac1) ∈ acts := by
      have hh := hacts.hellos 0
      rw [hloc] at hh
      have hin : (7, heard mac1) ∈ acts.filterMap (Act.helloOf 0) := by
        rw [hh]
        exact List.mem_filterMap.mpr ⟨_, List.mem_cons_self, hello_heard 7 mac1⟩
      exact Act.mem_helloOf.mp hin
    have hsome := entry_alone hcall hmem
    rw [← he] at hsome
    show False
    rw [show (heard mac1).neighborMac = mac1 from rfl, hnone] at hsome
    cases hsome

/-- Hellos of the nodes 7 and 8 side by side: both handlers get before either adds, another
    client adds and deletes the node 9 between, and the adds come in the other order. -/
def sideBySide : List (Nat × StateCommand) :=
  [(0, .get (.neighbor 7)), (1, .get (.neighbor 8)), (2, .add (.neighbor 9 .new)),
    (1, .add (.neighbor 8 (Neighbor.new.addInterface (heard mac2)))), (2, .del (.neighbor 9)),
    (0, .add (.neighbor 7 (Neighbor.new.addInterface (heard mac1))))]

/-- The nodes 7, 8 and 9 are written by the tasks 0, 1 and 2. -/
theorem sideBySide_owner {x : Nat × StateCommand} (hx : x ∈ sideBySide) {id : U32} (hw : x.2.Writes (.neighbor id)) :
    x.1 = id.toNat - 7 := by
  have hall : ∀ x ∈ sideBySide, ∀ id, x.2.Writes (.neighbor id) → x.1 = id.toNat - 7 := by
    simp only [sideBySide, List.forall_mem_cons, StateCommand.Writes]
    simp [KeyValue.key]
  exact hall x hx id hw

theorem undisturbed_handlers_atomic_two :
    ∃ s : Sys, (served s).map (fun r => (r.who, r.call)) = sideBySide ∧
      ∃ acts, Serial oneLink twoHandlers s acts ∧ s.srv.nt = alone acts := by
  have h0 : Reach (server noRoutes) (program oneLink twoHandlers fun _ => True)
      (Mailbox.init (server noRoutes) (program oneLink twoHandlers fun _ => True) : Sys) := .init rfl
  have h1 := take_turn h0 (c := 0) rfl rfl rfl (helloFrame 1 7 0x0a00000b mac1)
  have h2 := take_turn h1 (c := 1) rfl rfl rfl (helloFrame 1 8 0x0a00000b mac2)
  rw [hello_heard, hello_heard] at h2
  obtain ⟨s3, h3, hsrv3, t3⟩ := get_turn (reach_keeps 0) h2 rfl rfl rfl rfl
  obtain ⟨s4, h4, hsrv4, t4⟩ := get_turn (reach_keeps 1) h3 rfl t3.q (by rw [t3.pc]; rfl) (by rw [t3.loc]; rfl)
  obtain ⟨s5, h5, -, hq5, hpc5, hloc5, hlog5⟩ := foreign_turn h4 (c := 2) rfl t4.q (by rw [t4.pc, t3.pc]; rfl) trivial
    (Serve.add s4.srv (.neighbor 9 .new))
  obtain ⟨s6, h6, -, t6⟩ := add_turn (reach_keeps 1) h5 rfl hq5 (by rw [hpc5, t4.pc, t3.pc]; rfl)
    (by rw [hloc5, t4.loc, t3.loc]; rfl)
  obtain ⟨s7, h7, -, hq7, hpc7, hloc7, hlog7⟩ := foreign_turn h6 (c := 2) rfl t6.q
    (by rw [t6.pc, hpc5, t4.pc, t3.pc]; rfl) trivial (Serve.del s6.srv (.neighbor 9))
  obtain ⟨s8, h8, -, t8⟩ := add_turn (reach_keeps 0) h7 rfl hq7 (by rw [hpc7, t6.pc, hpc5, t4.pc, t3.pc]; rfl)
    (by rw [hloc7, t6.loc, hloc5, t4.loc, t3.loc]; rfl)
  have hserved : (served s8).map (fun r => (r.who, r.call)) = sideBySide := by
    rw [t8.served, served_of_log hlog7, t6.served, served_of_log hlog5, t4.served, t3.served, hsrv3]
    rfl
  have hset : Settled s8 := by
    refine ⟨t8.q, fun c => ?_⟩
    rw [t8.loc, hloc7, t6.loc, hloc5, t4.loc, t3.loc]
    by_cases e0 : c = 0
    · rw [e0]; rfl
    · rw [Function.update_of_ne e0]
      by_cases e1 : c = 1
      · rw [e1]; rfl
      · simp only [Function.update_of_ne e0, Function.update_of_ne e1]
        rfl
  refine ⟨s8, hserved, undisturbed_handlers_atomic h8 hset (undisturbed_of_apart (fun id => id.toNat - 7) ?_)⟩
  intro r hr id hw
  have hm := List.mem_map_of_mem (f := fun r => (r.who, r.call)) hr
  rw [hserved] at hm
  exact sideBySide_owner hm hw

end FabricRs.UserSpace

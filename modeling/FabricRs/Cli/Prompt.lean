/-
  FabricRs.Cli.Prompt — the prompt of `Cli::run` (`cli/cli.rs`), the client of the relay
  task beside it.

  It reads a line and lists a table by it, entry by entry printed, or says that there is no
  such command, or ends the process with all its tasks. A prompt that the user cancels
  panics in `unwrap` and reads no more. Beside it run any other tasks, a program `P`;
  client `c` is the prompt. `entered` (the lines read) only records what happened.

  - `session`: line by line, what the prompt has printed is the table as it was at a time
    after the line was entered and before its entries were printed.
  - `lines_answered`: if no task is passed over for ever, each line that does not end the process
    gets its text.
-/

import FabricRs.Lib.MailboxLive
import FabricRs.State.Linearizable
import FabricRs.State.Listing

namespace FabricRs.Cli

open State
open Mailbox (Agent Prog Req Step hold ids served_when)
open Lts (Behavior Chan)
open Function (update)

inductive Command where
  | list (tableType : TableType)
  | exit
  | notFound
  deriving DecidableEq

/-- The arms of `match command.as_str()`. -/
def command (line : String) : Command :=
  match line with
  | "RouteTable" => .list .routeTable
  | "NeighborTable" => .list .neighborTable
  | "ForwardingTable" => .list .forwardingTable
  | "Exit" => .exit
  | _ => .notFound

/-- Where the prompt's loop is. -/
inductive At where
  | reading
  /-- Before and in `cli_client.list`. -/
  | listing (tableType : TableType)
  | printing (kvs : List KeyValue)
  | refusing
  | panicked
  | exited

structure Prompt where
  pc : At
  entered : List String
  out : String

namespace Prompt

def init : Prompt := ⟨.reading, [], ""⟩

def enter (p : Prompt) (line : String) : Prompt where
  pc :=
    match command line with
    | .list tt => .listing tt
    | .exit => .exited
    | .notFound => .refusing
  entered := p.entered ++ [line]
  out := p.out

/-- Once `list` has returned. The types of the sources leave no other answer. -/
def ret (p : Prompt) : Option Reply → Prompt
  | some (.list kvs) => { p with pc := .printing kvs }
  | _ => p

inductive Step : Prompt → Prompt → Prop
  /-- `required!()` refuses the empty line. -/
  | enter (p : Prompt) (line : String) : p.pc = .reading → line ≠ "" → Step p (p.enter line)
  | cancel (p : Prompt) : p.pc = .reading → Step p { p with pc := .panicked }
  | print (p : Prompt) (kvs : List KeyValue) (text : String) : p.pc = .printing kvs → Printed kvs text →
      Step p { p with pc := .reading, out := p.out ++ text }
  | refuse (p : Prompt) : p.pc = .refusing → Step p { p with pc := .reading, out := p.out ++ "Command not found\n" }

theorem Step.entered {p q : Prompt} (h : Step p q) : p.entered <+: q.entered := by
  cases h with
  | enter line _ _ => exact List.prefix_append _ _
  | _ => exact List.prefix_refl _

theorem Step.ne_listing {p q : Prompt} (h : Step p q) (tt : TableType) : p.pc ≠ .listing tt := by
  cases h with
  | enter line h _ => simp [h]
  | cancel h => simp [h]
  | print kvs text h _ => simp [h]
  | refuse h => simp [h]

/-- It has something to say. -/
def Says (p : Prompt) : Prop := p.pc = .refusing ∨ ∃ kvs, p.pc = .printing kvs

theorem Says.exists_step {p : Prompt} (h : p.Says) : ∃ q, Step p q := by
  rcases h with h | ⟨kvs, h⟩
  · exact ⟨_, .refuse p h⟩
  · obtain ⟨text, ht⟩ := exists_printed kvs
    exact ⟨_, .print p kvs text h ht⟩

theorem Says.step {p q : Prompt} (h : p.Says) (hs : Step p q) : q.pc = .reading ∧ q.entered = p.entered := by
  unfold Says at h
  cases hs with
  | enter line hp _ => simp [hp] at h
  | cancel hp => simp [hp] at h
  | print kvs text _ _ => exact ⟨rfl, rfl⟩
  | refuse _ => exact ⟨rfl, rfl⟩

end Prompt

variable {L : Type} (P : Prog StateCommand Reply L) (c : Nat)

def withPrompt : Prog StateCommand Reply (L × Prompt) where
  init d := (P.init d, .init)
  direct d := if d = c then false else P.direct d
  tau d l l' := if d = c then l'.1 = l.1 ∧ Prompt.Step l.2 l'.2 else l'.2 = l.2 ∧ P.tau d l.1 l'.1
  call d l cmd := if d = c then ∃ tt, l.2.pc = .listing tt ∧ cmd = .list tt else P.call d l.1 cmd
  ret d l cmd rep := if d = c then (l.1, l.2.ret rep) else (P.ret d l.1 cmd rep, l.2)

abbrev Sys (L : Type) : Type := Mailbox.St Tables StateCommand Reply (L × Prompt) stateCap cliCap

def screen (c : Nat) (s : Sys L) : Prompt := (s.loc c).2

variable (lpmTrie : LpmTrie)

abbrev Mail (a : Agent) (s t : Sys L) : Prop := Step (server lpmTrie) (withPrompt P c) a s t

/-- No task goes on once the process has ended. -/
def Acts (a : Agent) (s t : Sys L) : Prop := (screen c s).pc ≠ .exited ∧ Mail P c lpmTrie a s t

abbrev Steps (s t : Sys L) : Prop := ∃ a, Acts P c lpmTrie a s t

abbrev Reach (s : Sys L) : Prop :=
  Lts.Reach (· = Mailbox.init (server lpmTrie) (withPrompt P c)) (Steps P c lpmTrie) s

abbrev Trace : Type :=
  Behavior (S := Sys L) (· = Mailbox.init (server lpmTrie) (withPrompt P c)) (Steps P c lpmTrie)

/-- What the prompt prints in answer to a line with these tables. -/
def Answers (s : Tables) (line text : String) : Prop :=
  match command line with
  | .list tt => ∃ kvs, s.Lists tt kvs ∧ Printed kvs text
  | .exit => False
  | .notFound => text = "Command not found\n"

/-- Each of `texts` was printed in answer to one of the lines entered by the time `m`, the
    `k`-th to the `k`-th, with the tables as they were at a time when that line had been
    entered and what came before was all that was printed. -/
structure Shown {P : Prog StateCommand Reply L} {c : Nat} {lpmTrie : LpmTrie} (b : Trace P c lpmTrie) (m : Nat)
    (texts : List String) : Prop where
  out : (screen c (b.state m)).out = String.join texts
  each : ∀ k line text, (screen c (b.state m)).entered[k]? = some line → texts[k]? = some text → ∃ i, i ≤ m ∧
    (screen c (b.state i)).entered = (screen c (b.state m)).entered.take (k + 1) ∧
    (screen c (b.state i)).out = String.join (texts.take k) ∧ Answers (b.state i).srv line text

variable {P : Prog StateCommand Reply L} {c : Nat} {lpmTrie : LpmTrie}

/-! ## One step -/

/-- What a step is to the prompt. -/
inductive Moves (c : Nat) (a : Agent) (s t : Sys L) : Prop
  | none : a ≠ .client c → screen c t = screen c s → t.pc c = s.pc c → Moves c a s t
  | own : s.pc c = .idle → t.pc c = .idle → Prompt.Step (screen c s) (screen c t) → Moves c a s t
  | begin (r : Req StateCommand) (tt : TableType) : s.pc c = .idle → (screen c s).pc = .listing tt →
      t.pc c = .sending r → r.call = .list tt → r.op = s.issued.length → screen c t = screen c s → Moves c a s t
  | send (r : Req StateCommand) : s.pc c = .sending r → t.pc c = .waiting r → screen c t = screen c s → Moves c a s t
  | recv (r : Req StateCommand) (v : Reply) : s.pc c = .waiting r → s.one r.tx = some v → t.pc c = .idle →
      screen c t = (screen c s).ret (some v) → Moves c a s t

theorem step_moves {a : Agent} {s t : Sys L} (h : Mail P c lpmTrie a s t) : Moves c a s t := by
  by_cases ha : a = .client c
  · subst ha
    cases h with
    | tau _ l hpc hl =>
      simp only [withPrompt, if_true] at hl
      refine .own hpc hpc ?_
      simp only [screen, Function.update_self]
      exact hl.2
    | begin _ call hpc hcall _ =>
      simp only [withPrompt, if_true] at hcall
      obtain ⟨tt, hl, rfl⟩ := hcall
      exact .begin _ tt hpc hl (Function.update_self _ _ _) rfl rfl rfl
    | push _ r q' _ hd _ _ =>
      simp only [withPrompt, if_true, reduceCtorEq] at hd
    | post _ r q' _ hd _ _ =>
      simp only [withPrompt, if_true, reduceCtorEq] at hd
    | ask _ r q' hpc _ _ => exact .send r hpc (Function.update_self _ _ _) rfl
    | recv _ r v hpc hv =>
      refine .recv r v hpc hv (Function.update_self _ _ _) ?_
      simp only [screen, Function.update_self, withPrompt, if_true]
  · have hpc := (Mailbox.step_pc h c).resolve_right ha
    have hloc := (Mailbox.step_loc h c).resolve_right ha
    exact .none ha (congrArg Prod.snd hloc) hpc

/-! ## Along a run -/

/-- The prompt's behavior without the end of the process. -/
def mail (b : Trace P c lpmTrie) : Mailbox.Trace (server lpmTrie) (withPrompt P c) stateCap cliCap :=
  b.map id (fun _ h => h) fun _ _ _ ⟨a, _, hs⟩ => Or.inl ⟨a, hs⟩

/-- The call `r` of a line is in the prompt's hand. At the time `n` it had not begun, but the
    line was entered. -/
structure Calling (b : Trace P c lpmTrie) (m : Nat) (tt : TableType) (r : Req StateCommand) (n : Nat) : Prop where
  hand : (b.state m).pc c = .sending r ∨ (b.state m).pc c = .waiting r
  call : r.call = .list tt
  le : n ≤ m
  same : ∀ i, n ≤ i → i ≤ m → screen c (b.state i) = screen c (b.state m)
  fresh : (b.state n).issued.length ≤ r.op

/-- `kvs` was the list at the time `i`, when the line was entered and nothing printed. -/
structure Listed (b : Trace P c lpmTrie) (m : Nat) (tt : TableType) (kvs : List KeyValue) (i : Nat) : Prop where
  le : i ≤ m
  entered : (screen c (b.state i)).entered = (screen c (b.state m)).entered
  out : (screen c (b.state i)).out = (screen c (b.state m)).out
  lists : (b.state i).srv.Lists tt kvs

/-- How far the prompt is with the last line entered. -/
def Busy (b : Trace P c lpmTrie) (m : Nat) (line : String) : Prop :=
  match (screen c (b.state m)).pc with
  | .listing tt => command line = .list tt ∧ ((b.state m).pc c = .idle ∨ ∃ r n, Calling b m tt r n)
  | .printing kvs => (b.state m).pc c = .idle ∧ ∃ tt i, command line = .list tt ∧ Listed b m tt kvs i
  | .refusing => (b.state m).pc c = .idle ∧ command line = .notFound
  | .exited => (b.state m).pc c = .idle
  | _ => False

/-- Every line has its text, or all but the last. -/
inductive Stage (b : Trace P c lpmTrie) (m : Nat) (texts : List String) : Prop
  | rest : (screen c (b.state m)).pc = .reading ∨ (screen c (b.state m)).pc = .panicked → (b.state m).pc c = .idle →
      (screen c (b.state m)).entered.length = texts.length → Stage b m texts
  | busy (lines : List String) (line : String) : (screen c (b.state m)).entered = lines ++ [line] →
      lines.length = texts.length → Busy b m line → Stage b m texts

variable {b : Trace P c lpmTrie} {m : Nat} {texts : List String}

theorem Shown.still (h : Shown b m texts)
    (he : (screen c (b.state (m + 1))).entered = (screen c (b.state m)).entered)
    (ho : (screen c (b.state (m + 1))).out = (screen c (b.state m)).out) : Shown b (m + 1) texts := by
  refine ⟨ho.trans h.out, fun k line text hl ht => ?_⟩
  rw [he] at hl ⊢
  obtain ⟨i, hi, hrest⟩ := h.each k line text hl ht
  exact ⟨i, hi.trans (Nat.le_succ m), hrest⟩

theorem Calling.next {tt : TableType} {r : Req StateCommand} {n : Nat} (h : Calling b m tt r n)
    (he : screen c (b.state (m + 1)) = screen c (b.state m))
    (hr : (b.state (m + 1)).pc c = .sending r ∨ (b.state (m + 1)).pc c = .waiting r) : Calling b (m + 1) tt r n := by
  refine ⟨hr, h.call, h.le.trans (Nat.le_succ m), fun i hni him => ?_, h.fresh⟩
  rcases Nat.le_succ_iff.mp him with him | rfl
  · rw [he]
    exact h.same i hni him
  · rfl

theorem Busy.still {line : String} (h : Busy b m line) (he : screen c (b.state (m + 1)) = screen c (b.state m))
    (hpc : (b.state (m + 1)).pc c = (b.state m).pc c) : Busy b (m + 1) line := by
  unfold Busy at h ⊢
  rw [he, hpc]
  cases hp : (screen c (b.state m)).pc with
  | listing tt =>
    simp only [hp] at h ⊢
    exact h.imp_right fun h => h.imp_right fun ⟨r, n, hr⟩ => ⟨r, n, hr.next he (by rw [hpc]; exact hr.hand)⟩
  | printing kvs =>
    simp only [hp] at h ⊢
    obtain ⟨hidle, tt, i, hc, hl⟩ := h
    exact ⟨hidle, tt, i, hc, hl.le.trans (Nat.le_succ m), by rw [he]; exact hl.entered, by rw [he]; exact hl.out, hl.lists⟩
  | refusing => simpa only [hp] using h
  | exited => simpa only [hp] using h
  | reading => simp only [hp] at h
  | panicked => simp only [hp] at h

theorem Stage.still (h : Stage b m texts) (he : screen c (b.state (m + 1)) = screen c (b.state m))
    (hpc : (b.state (m + 1)).pc c = (b.state m).pc c) : Stage b (m + 1) texts := by
  cases h with
  | rest h1 h2 h3 => exact .rest (by rw [he]; exact h1) (hpc.trans h2) (by rw [he]; exact h3)
  | busy lines line h1 h2 hb => exact .busy lines line (by rw [he]; exact h1) h2 (hb.still he hpc)

/-- A line more has no text yet. -/
theorem Shown.enter (h : Shown b m texts) {line : String}
    (hlen : (screen c (b.state m)).entered.length = texts.length)
    (he : screen c (b.state (m + 1)) = (screen c (b.state m)).enter line) : Shown b (m + 1) texts := by
  refine ⟨by rw [he]; exact h.out, fun k line' text hl ht => ?_⟩
  have hk : k < (screen c (b.state m)).entered.length := by
    rw [hlen]
    exact (List.getElem?_eq_some_iff.mp ht).1
  rw [he] at hl ⊢
  simp only [Prompt.enter, List.getElem?_append_left hk] at hl
  obtain ⟨i, hi, hin, hrest⟩ := h.each k line' text hl ht
  refine ⟨i, hi.trans (Nat.le_succ m), ?_, hrest⟩
  rw [hin]
  exact (List.take_append_of_le_length hk).symm

/-- The last line gets its text. -/
theorem Shown.answer (h : Shown b m texts) {lines : List String} {line text : String}
    (hin : (screen c (b.state m)).entered = lines ++ [line]) (hlen : lines.length = texts.length)
    (he : screen c (b.state (m + 1)) = { screen c (b.state m) with pc := .reading, out := (screen c (b.state m)).out ++ text })
    {i : Nat} (hi : i ≤ m) (hent : (screen c (b.state i)).entered = (screen c (b.state m)).entered)
    (hout : (screen c (b.state i)).out = (screen c (b.state m)).out) (ha : Answers (b.state i).srv line text) :
    Shown b (m + 1) (texts ++ [text]) := by
  refine ⟨?_, fun k line' text' hl ht => ?_⟩
  · rw [he, String.join_append, ← h.out]
    simp
  rw [he] at hl ⊢
  have hl : (screen c (b.state m)).entered[k]? = some line' := hl
  rcases Nat.lt_or_ge k texts.length with hk | hk
  · rw [List.getElem?_append_left hk] at ht
    obtain ⟨j, hj, hrest⟩ := h.each k line' text' hl ht
    refine ⟨j, hj.trans (Nat.le_succ m), ?_⟩
    rw [List.take_append_of_le_length hk.le]
    exact hrest
  · have hlt : k < (texts ++ [text]).length := (List.getElem?_eq_some_iff.mp ht).1
    have hk : k = texts.length := by
      rw [List.length_append, List.length_singleton] at hlt
      omega
    subst hk
    rw [hin, ← hlen, List.getElem?_concat_length] at hl
    rw [List.getElem?_concat_length] at ht
    cases hl
    cases ht
    refine ⟨i, hi.trans (Nat.le_succ m), ?_, ?_, ha⟩
    · rw [hent]
      refine (List.take_of_length_le ?_).symm
      rw [hin, List.length_append, hlen]
      rfl
    · rw [List.take_append_of_le_length (Nat.le_refl _), List.take_length, hout, h.out]

theorem serve_list {s t : Tables} {tt : TableType} {v : Reply} (h : Serve s (.list tt) t (some v)) :
    ∃ kvs, v = .list kvs ∧ s.Lists tt kvs := by
  cases h with
  | list _ _ hl => exact ⟨_, rfl, hl⟩

/-- What the call of a line returns is the list of its table at a time since the line was
    entered. -/
theorem call_returns {tt : TableType} {r : Req StateCommand} {v : Reply} {n : Nat} (hr : (b.state m).pc c = .waiting r)
    (hcall : r.call = .list tt) (hop : (b.state n).issued.length ≤ r.op) (hone : (b.state m).one r.tx = some v) :
    ∃ i kvs, n ≤ i ∧ i < m ∧ v = .list kvs ∧ (b.state i).srv.Lists tt kvs := by
  have hm := (mail b).reach m
  have hknown := ((ids hm).pc c r (Or.inr hr)).1
  obtain ⟨r', hr', hans⟩ := (hold hm).one r.tx v hone
  have hrr : r' = r := Option.some.inj (hr'.symm.trans hknown)
  rw [hrr] at hans
  obtain ⟨i, x, hni, him, hx, hxop, hserve⟩ := served_when (mail b) hop hans
  have hxcall := ((ids hm).op_inj ((ids hm).log x hx) hknown hxop).2
  rw [hxcall, hcall] at hserve
  obtain ⟨kvs, hv, hl⟩ := serve_list hserve
  exact ⟨i, kvs, hni, him, hv, hl⟩

theorem Busy.ne_reading {line : String} (h : Busy b m line) : (screen c (b.state m)).pc ≠ .reading := by
  intro hp
  simp only [Busy, hp] at h

theorem Stage.reading (h : Stage b m texts) (hp : (screen c (b.state m)).pc = .reading) :
    (screen c (b.state m)).entered.length = texts.length := by
  cases h with
  | rest _ _ hlen => exact hlen
  | busy lines line _ _ hb => exact absurd hp hb.ne_reading

/-- The line that is being seen to. -/
theorem Stage.last (h : Stage b m texts)
    (hp : (screen c (b.state m)).pc ≠ .reading ∧ (screen c (b.state m)).pc ≠ .panicked) :
    ∃ lines line, (screen c (b.state m)).entered = lines ++ [line] ∧ lines.length = texts.length ∧ Busy b m line := by
  cases h with
  | rest h _ _ => exact absurd h (not_or.mpr hp)
  | busy lines line h1 h2 hb => exact ⟨lines, line, h1, h2, hb⟩

/-- The call in the prompt's hand. -/
theorem Stage.calling (h : Stage b m texts) {r : Req StateCommand}
    (hr : (b.state m).pc c = .sending r ∨ (b.state m).pc c = .waiting r) :
    ∃ lines line tt n, (screen c (b.state m)).entered = lines ++ [line] ∧ lines.length = texts.length ∧
      (screen c (b.state m)).pc = .listing tt ∧ command line = .list tt ∧ Calling b m tt r n := by
  have hbusy : (b.state m).pc c ≠ .idle := by
    intro e
    rw [e] at hr
    simp at hr
  cases h with
  | rest _ h _ => exact absurd h hbusy
  | busy lines line h1 h2 hb =>
    unfold Busy at hb
    cases hp : (screen c (b.state m)).pc with
    | listing tt =>
      simp only [hp] at hb
      obtain ⟨hc, hidle | ⟨r', n, hcall⟩⟩ := hb
      · exact absurd hidle hbusy
      · have hrr : r' = r := by
          rcases hr with hr | hr
          · rcases hcall.hand with h | h
            · exact Mailbox.Pc.sending.inj (h.symm.trans hr)
            · cases h.symm.trans hr
          · rcases hcall.hand with h | h
            · cases h.symm.trans hr
            · exact Mailbox.Pc.waiting.inj (h.symm.trans hr)
        rw [hrr] at hcall
        exact ⟨lines, line, tt, n, h1, h2, rfl, hc, hcall⟩
    | printing kvs =>
      simp only [hp] at hb
      exact absurd hb.1 hbusy
    | refusing =>
      simp only [hp] at hb
      exact absurd hb.1 hbusy
    | exited =>
      simp only [hp] at hb
      exact absurd hb hbusy
    | reading => simp only [hp] at hb
    | panicked => simp only [hp] at hb

/-- A step of the prompt's own. -/
theorem own_stage (hs : Shown b m texts) (hst : Stage b m texts) (hpc : (b.state (m + 1)).pc c = .idle)
    (h : Prompt.Step (screen c (b.state m)) (screen c (b.state (m + 1)))) :
    ∃ texts', Shown b (m + 1) texts' ∧ Stage b (m + 1) texts' := by
  generalize hp : screen c (b.state m) = p at h
  generalize hp' : screen c (b.state (m + 1)) = p' at h
  cases h with
  | enter line hreading _ =>
    rw [← hp] at hreading hp'
    have hlen := hst.reading hreading
    refine ⟨texts, hs.enter hlen hp', .busy _ line (by rw [hp']; rfl) hlen ?_⟩
    cases hc : command line with
    | list tt => simp [Busy, hp', Prompt.enter, hc, hpc]
    | exit => simp [Busy, hp', Prompt.enter, hc, hpc]
    | notFound => simp [Busy, hp', Prompt.enter, hc, hpc]
  | cancel hreading =>
    rw [← hp] at hreading hp'
    refine ⟨texts, hs.still (by rw [hp']) (by rw [hp']), .rest (Or.inr (by rw [hp'])) hpc ?_⟩
    rw [hp']
    exact hst.reading hreading
  | print kvs text hprinting htext =>
    rw [← hp] at hprinting hp'
    obtain ⟨lines, line, h1, h2, hb⟩ := hst.last (by simp [hprinting])
    simp only [Busy, hprinting] at hb
    obtain ⟨-, tt, i, hc, hl⟩ := hb
    have ha : Answers (b.state i).srv line text := by
      unfold Answers
      rw [hc]
      exact ⟨kvs, hl.lists, htext⟩
    refine ⟨texts ++ [text], hs.answer h1 h2 hp' hl.le hl.entered hl.out ha, .rest (Or.inl (by rw [hp'])) hpc ?_⟩
    rw [hp', List.length_append, ← h2]
    exact (congrArg List.length h1).trans List.length_append
  | refuse hrefusing =>
    rw [← hp] at hrefusing hp'
    obtain ⟨lines, line, h1, h2, hb⟩ := hst.last (by simp [hrefusing])
    simp only [Busy, hrefusing] at hb
    have ha : Answers (b.state m).srv line "Command not found\n" := by
      unfold Answers
      rw [hb.2]
    refine ⟨_, hs.answer h1 h2 hp' (Nat.le_refl m) rfl rfl ha, .rest (Or.inl (by rw [hp'])) hpc ?_⟩
    rw [hp', List.length_append, ← h2]
    exact (congrArg List.length h1).trans List.length_append

theorem next_stage (hs : Shown b m texts) (hst : Stage b m texts) :
    ∃ texts', Shown b (m + 1) texts' ∧ Stage b (m + 1) texts' := by
  rcases b.next m with ⟨a, -, h⟩ | h
  · cases step_moves h with
    | none _ he hpc => exact ⟨texts, hs.still (by rw [he]) (by rw [he]), hst.still he hpc⟩
    | own _ hpc hstep => exact own_stage hs hst hpc hstep
    | begin r tt _ hp hpc hcall hop he =>
      obtain ⟨lines, line, h1, h2, hb⟩ := hst.last (by simp [hp])
      simp only [Busy, hp] at hb
      have hcalling : Calling b (m + 1) tt r m := by
        refine ⟨Or.inl hpc, hcall, Nat.le_succ m, fun i hmi him => ?_, hop.ge⟩
        rcases Nat.le_succ_iff.mp him with him | rfl
        · rw [Nat.le_antisymm him hmi, he]
        · rfl
      refine ⟨texts, hs.still (by rw [he]) (by rw [he]), .busy lines line (by rw [he]; exact h1) h2 ?_⟩
      simp only [Busy, he, hp]
      exact ⟨hb.1, Or.inr ⟨r, m, hcalling⟩⟩
    | send r hr hpc he =>
      obtain ⟨lines, line, tt, n, h1, h2, hp, hc, hcalling⟩ := hst.calling (Or.inl hr)
      refine ⟨texts, hs.still (by rw [he]) (by rw [he]), .busy lines line (by rw [he]; exact h1) h2 ?_⟩
      simp only [Busy, he, hp]
      exact ⟨hc, Or.inr ⟨r, n, hcalling.next he (Or.inr hpc)⟩⟩
    | recv r v hr hone hpc he =>
      obtain ⟨lines, line, tt, n, h1, h2, hp, hc, hcalling⟩ := hst.calling (Or.inr hr)
      obtain ⟨i, kvs, hni, him, rfl, hl⟩ := call_returns hr hcalling.call hcalling.fresh hone
      have hi := hcalling.same i hni him.le
      have hlisted : Listed b (m + 1) tt kvs i :=
        ⟨him.le.trans (Nat.le_succ m), by rw [he, hi]; rfl, by rw [he, hi]; rfl, hl⟩
      refine ⟨texts, hs.still (by rw [he]; rfl) (by rw [he]; rfl), .busy lines line (by rw [he]; exact h1) h2 ?_⟩
      simp only [Busy, he, Prompt.ret]
      exact ⟨hpc, tt, i, hc, hlisted⟩
  · exact ⟨texts, hs.still (by rw [h]) (by rw [h]), hst.still (by rw [h]) (by rw [h])⟩

theorem Moves.entered {a : Agent} {s t : Sys L} (h : Moves c a s t) : (screen c s).entered <+: (screen c t).entered := by
  have heq : ∀ {p q : Prompt}, q = p → p.entered <+: q.entered := fun e => by rw [e]
  cases h with
  | none _ he _ => exact heq he
  | own _ _ hs => exact hs.entered
  | begin r tt _ _ _ _ _ he => exact heq he
  | send r _ _ he => exact heq he
  | recv r v _ _ _ he =>
    rw [he]
    cases v <;> exact List.prefix_refl _

/-- The lines entered stay. -/
theorem entered_mono (b : Trace P c lpmTrie) {n m : Nat} (hm : n ≤ m) :
    (screen c (b.state n)).entered <+: (screen c (b.state m)).entered :=
  Behavior.stable (P := fun s : Sys L => (screen c (b.state n)).entered <+: (screen c s).entered)
    (fun _ _ _ h ⟨_, _, hs⟩ => h.trans (step_moves hs).entered) hm (List.prefix_refl _)

theorem exists_stage (b : Trace P c lpmTrie) (m : Nat) : ∃ texts, Shown b m texts ∧ Stage b m texts := by
  induction m with
  | zero =>
    have h0 : b.state 0 = Mailbox.init (server lpmTrie) (withPrompt P c) := b.start
    refine ⟨[], ⟨by rw [h0]; rfl, fun k line text _ ht => by simp at ht⟩, .rest ?_ (by rw [h0]; rfl) (by rw [h0]; rfl)⟩
    rw [h0]
    exact Or.inl rfl
  | succ m ih =>
    obtain ⟨texts, hs, hst⟩ := ih
    exact next_stage hs hst

/-- What other tasks there are and whatever they do: what the prompt has printed is a text
    for each of the lines entered, in their order, the last one's still to come unless the
    prompt reads again. The text for a table is what is printed of it as it was at a time
    between the line was entered and its text was printed. -/
theorem session (b : Trace P c lpmTrie) (m : Nat) : ∃ texts, Shown b m texts ∧
    texts.length ≤ (screen c (b.state m)).entered.length ∧ (screen c (b.state m)).entered.length ≤ texts.length + 1 ∧
    ((screen c (b.state m)).pc = .reading → texts.length = (screen c (b.state m)).entered.length) := by
  obtain ⟨texts, hs, hst⟩ := exists_stage b m
  refine ⟨texts, hs, ?_, ?_, fun hp => (hst.reading hp).symm⟩
  · cases hst with
    | rest _ _ h => exact h.ge
    | busy lines line h1 h2 _ =>
      rw [h1, List.length_append, h2]
      exact Nat.le_add_right _ _
  · cases hst with
    | rest _ _ h => exact h.le.trans (Nat.le_succ _)
    | busy lines line h1 h2 _ =>
      rw [h1, List.length_append, h2]
      exact Nat.le_refl _

/-! ## Every line gets its text -/

variable (P c lpmTrie) in
/-- What the prompt does while it does not wait for the user. -/
def Own (s t : Sys L) : Prop := (s.pc c ≠ .idle ∨ (screen c s).pc ≠ .reading) ∧ Acts P c lpmTrie (.client c) s t

/-- No task is passed over for ever. -/
structure FairRun (b : Trace P c lpmTrie) : Prop where
  server : b.Fair (Acts P c lpmTrie .server)
  relay : b.Fair (Acts P c lpmTrie .relay)
  prompt : b.Fair (Own P c lpmTrie)

/-- The call of a line is begun. -/
theorem begins_call (hb : FairRun b) {p : Prompt} {tt : TableType} (hp : p.pc = .listing tt) :
    b.LeadsTo (fun s => screen c s = p ∧ s.pc c = .idle) fun s => screen c s = p ∧ s.pc c ≠ .idle := by
  have hstep : ∀ (a : Agent) (s t : Sys L), screen c s = p → s.pc c = .idle → Mail P c lpmTrie a s t →
      (a ≠ .client c ∧ screen c t = p ∧ t.pc c = .idle) ∨ (screen c t = p ∧ t.pc c ≠ .idle) := by
    intro a s t hs hidle h
    cases step_moves h with
    | none ha he hpc => exact Or.inl ⟨ha, he.trans hs, hpc.trans hidle⟩
    | own _ _ hstep => exact absurd (by rw [hs, hp]) (hstep.ne_listing tt)
    | begin r tt _ _ hpc _ _ he => exact Or.inr ⟨he.trans hs, by rw [hpc]; intro e; cases e⟩
    | send r hr _ _ => rw [hidle] at hr; cases hr
    | recv r v hr _ _ _ => rw [hidle] at hr; cases hr
  refine Behavior.leads_of_fair hb.prompt ?_ ?_ ?_
  · rintro s t _ ⟨hs, hidle⟩ ⟨a, -, h⟩
    exact (hstep a s t hs hidle h).imp_left And.right
  · rintro s _ ⟨hs, hidle⟩
    have hl : (screen c s).pc = .listing tt := by rw [hs, hp]
    have hcall : (withPrompt P c).call c (s.loc c) (.list tt) := by
      simp only [withPrompt, if_true]
      exact ⟨tt, hl, rfl⟩
    exact ⟨_, Or.inr (by simp [hl]), ⟨by simp [hl], .begin c (.list tt) hidle hcall fun _ => rfl⟩⟩
  · rintro s t _ ⟨hs, hidle⟩ ⟨-, -, h⟩
    exact (hstep _ s t hs hidle h).resolve_left fun h => h.1 rfl

/-- The process has not ended before a time at which it has not. -/
theorem not_exited {n : Nat} (hn : (screen c (b.state n)).pc ≠ .exited) {i : Nat} (hi : i ≤ n) :
    (screen c (b.state i)).pc ≠ .exited := fun he =>
  hn (Behavior.stable (P := fun s : Sys L => (screen c s).pc = .exited) (fun _ _ _ he ⟨_, hne, _⟩ => absurd he hne) hi he)

theorem fair_mail (hne : ∀ i, (screen c (b.state i)).pc ≠ .exited) {E : Sys L → Sys L → Prop}
    (h : b.Fair fun s t => (screen c s).pc ≠ .exited ∧ E s t) : (mail b).Fair E := by
  intro hoft n
  obtain ⟨m, hm, -, he⟩ := h (fun n => by
    obtain ⟨m, hm, t, ht⟩ := hoft n
    exact ⟨m, hm, t, hne m, ht⟩) n
  exact ⟨m, hm, he⟩

theorem Stage.not_exited (h : Stage b m texts) (hpc : (b.state m).pc c ≠ .idle) : (screen c (b.state m)).pc ≠ .exited := by
  intro he
  obtain ⟨lines, line, -, -, hb⟩ := h.last (by simp [he])
  simp only [Busy, he] at hb
  exact hpc hb

/-- A call in the prompt's hand returns. -/
theorem comes_back (hb : FairRun b) {n : Nat} (hn : (b.state n).pc c ≠ .idle) : ∃ m, n ≤ m ∧ (b.state m).pc c = .idle := by
  by_contra hno
  push Not at hno
  have hne : ∀ i, (screen c (b.state i)).pc ≠ .exited := by
    have hlater : ∀ m, n ≤ m → (screen c (b.state m)).pc ≠ .exited := by
      intro m hm
      obtain ⟨texts, -, hst⟩ := exists_stage b m
      exact hst.not_exited (hno m hm)
    intro i
    rcases Nat.le_total i n with h | h
    · exact not_exited (hlater n (Nat.le_refl n)) h
    · exact hlater i h
  have hclient : b.Fair fun s t => s.pc c ≠ .idle ∧ Own P c lpmTrie s t := by
    refine hb.prompt.restrict fun s t _ hpc ⟨a, hacts⟩ hown => ?_
    rcases Mailbox.step_pc hacts.2 c with he | rfl
    · rw [he]
      exact hpc
    · exact absurd ⟨Or.inl hpc, hacts⟩ hown
  have hacts : (mail b).Fair (Mailbox.Acts (server lpmTrie) (withPrompt P c) (.client c)) := by
    refine fair_mail hne fun hoft n => ?_
    obtain ⟨m, hm, hpc, -, hs⟩ := hclient (fun n => by
      obtain ⟨m, hm, t, he, hpc, hs⟩ := hoft n
      exact ⟨m, hm, t, hpc, Or.inl hpc, he, hs⟩) n
    exact ⟨m, hm, hs.1, hpc, hs.2⟩
  obtain ⟨m, hm, hidle⟩ := Mailbox.idle_of (by decide) (fair_mail hne hb.server) (fun _ => fair_mail hne hb.relay) hacts
    (by decide) n hn
  exact hno m hm hidle

/-- It returns with a list to print. -/
theorem call_lists (hb : FairRun b) {n : Nat} (hn : (b.state n).pc c ≠ .idle) :
    ∃ m, n ≤ m ∧ ∃ kvs, screen c (b.state m) = { screen c (b.state n) with pc := .printing kvs } := by
  have hlasts : ∀ m, n ≤ m → (screen c (b.state m) = screen c (b.state n) ∧ (b.state m).pc c ≠ .idle) ∨
      ∃ k, n ≤ k ∧ ∃ kvs, screen c (b.state k) = { screen c (b.state n) with pc := .printing kvs } := by
    intro m hm
    induction m, hm using Nat.le_induction with
    | base => exact Or.inl ⟨rfl, hn⟩
    | succ m hm ih =>
      rcases ih with ⟨hs, hpc⟩ | hk
      · rcases b.next m with ⟨a, -, h⟩ | h
        · cases step_moves h with
          | none _ he hpc' => exact Or.inl ⟨he.trans hs, by rw [hpc']; exact hpc⟩
          | own hidle _ _ => exact absurd hidle hpc
          | begin r tt hidle _ _ _ _ _ => exact absurd hidle hpc
          | send r _ hpc' he => exact Or.inl ⟨he.trans hs, by rw [hpc']; intro e; cases e⟩
          | recv r v hr hone _ he =>
            obtain ⟨texts, -, hst⟩ := exists_stage b m
            obtain ⟨-, -, tt, k, -, -, -, -, hcalling⟩ := hst.calling (Or.inr hr)
            obtain ⟨-, kvs, -, -, rfl, -⟩ := call_returns hr hcalling.call hcalling.fresh hone
            exact Or.inr ⟨m + 1, hm.trans (Nat.le_succ m), kvs, by rw [he, hs]; rfl⟩
        · rw [h]
          exact Or.inl ⟨hs, hpc⟩
      · exact Or.inr hk
  obtain ⟨m, hm, hidle⟩ := comes_back hb hn
  exact (hlasts m hm).resolve_left fun h => h.2 hidle

/-- What there is to say is said. -/
theorem said (hb : FairRun b) {p : Prompt} (hp : p.Says) : b.LeadsTo (fun s => screen c s = p ∧ s.pc c = .idle)
    fun s => (screen c s).pc = .reading ∧ (screen c s).entered = p.entered := by
  have hstep : ∀ (a : Agent) (s t : Sys L), screen c s = p → s.pc c = .idle → Mail P c lpmTrie a s t →
      (a ≠ .client c ∧ screen c t = p ∧ t.pc c = .idle) ∨ ((screen c t).pc = .reading ∧ (screen c t).entered = p.entered) := by
    intro a s t hs hidle h
    cases step_moves h with
    | none ha he hpc => exact Or.inl ⟨ha, he.trans hs, hpc.trans hidle⟩
    | own _ _ hstep =>
      rw [hs] at hstep
      exact Or.inr (hp.step hstep)
    | begin r tt _ hl _ _ _ _ =>
      rw [hs] at hl
      unfold Prompt.Says at hp
      simp [hl] at hp
    | send r hr _ _ => rw [hidle] at hr; cases hr
    | recv r v hr _ _ _ => rw [hidle] at hr; cases hr
  refine Behavior.leads_of_fair hb.prompt ?_ ?_ ?_
  · rintro s t _ ⟨hs, hidle⟩ ⟨a, -, h⟩
    exact (hstep a s t hs hidle h).imp_left And.right
  · rintro s _ ⟨hs, hidle⟩
    obtain ⟨q, hq⟩ := hp.exists_step
    have hne : (screen c s).pc ≠ .reading ∧ (screen c s).pc ≠ .exited := by
      rw [hs]
      rcases hp with hp | ⟨kvs, hp⟩
      · simp [hp]
      · simp [hp]
    have htau : (withPrompt P c).tau c (s.loc c) ((s.loc c).1, q) := by
      simp only [withPrompt, if_true]
      refine ⟨trivial, ?_⟩
      rw [← hs] at hq
      exact hq
    exact ⟨_, Or.inr hne.1, ⟨hne.2, .tau c _ hidle htau⟩⟩
  · rintro s t _ ⟨hs, hidle⟩ ⟨-, -, h⟩
    exact (hstep _ s t hs hidle h).resolve_left fun h => h.1 rfl

theorem Stage.idle (h : Stage b m texts) (hs : (screen c (b.state m)).Says) : (b.state m).pc c = .idle := by
  rcases hs with hp | ⟨kvs, hp⟩
  · obtain ⟨lines, line, -, -, hb⟩ := h.last (by simp [hp])
    simp only [Busy, hp] at hb
    exact hb.1
  · obtain ⟨lines, line, -, -, hb⟩ := h.last (by simp [hp])
    simp only [Busy, hp] at hb
    exact hb.1

/-- The prompt reads again, and has entered nothing since. -/
def Reads (b : Trace P c lpmTrie) (n : Nat) : Prop :=
  ∃ m, n ≤ m ∧ (screen c (b.state m)).pc = .reading ∧ (screen c (b.state m)).entered = (screen c (b.state n)).entered

theorem reads_of_says (hb : FairRun b) {n : Nat} (hs : (screen c (b.state n)).Says) : Reads b n := by
  obtain ⟨texts, -, hst⟩ := exists_stage b n
  exact said hb hs n ⟨rfl, hst.idle hs⟩

theorem reads_of_call (hb : FairRun b) {n : Nat} (hn : (b.state n).pc c ≠ .idle) : Reads b n := by
  obtain ⟨k, hk, kvs, hs⟩ := call_lists hb hn
  obtain ⟨m, hm, hp, he⟩ := reads_of_says hb (n := k) (Or.inr ⟨kvs, by rw [hs]⟩)
  exact ⟨m, hk.trans hm, hp, by rw [he, hs]⟩

/-- If no task is passed over for ever: unless the process has ended, each line entered
    gets its text, then or later. -/
theorem lines_answered (hb : FairRun b) (n : Nat) (hn : (screen c (b.state n)).pc ≠ .exited) : ∃ m, n ≤ m ∧
    (screen c (b.state m)).entered = (screen c (b.state n)).entered ∧
    ∃ texts, Shown b m texts ∧ texts.length = (screen c (b.state n)).entered.length := by
  have hreads : Reads b n → ∃ m, n ≤ m ∧ (screen c (b.state m)).entered = (screen c (b.state n)).entered ∧
      ∃ texts, Shown b m texts ∧ texts.length = (screen c (b.state n)).entered.length := by
    rintro ⟨m, hm, hp, he⟩
    obtain ⟨texts, hs, hst⟩ := exists_stage b m
    exact ⟨m, hm, he, texts, hs, by rw [← he, hst.reading hp]⟩
  obtain ⟨texts, hs, hst⟩ := exists_stage b n
  cases hst with
  | rest _ _ hlen => exact ⟨n, Nat.le_refl n, rfl, texts, hs, hlen.symm⟩
  | busy lines line _ _ hbusy =>
    refine hreads ?_
    unfold Busy at hbusy
    cases hp : (screen c (b.state n)).pc with
    | listing tt =>
      simp only [hp] at hbusy
      obtain ⟨-, hidle | ⟨r, k, hcalling⟩⟩ := hbusy
      · obtain ⟨k, hk, hsame, hpc⟩ := begins_call hb hp n ⟨rfl, hidle⟩
        obtain ⟨m, hm, hr, he⟩ := reads_of_call hb hpc
        exact ⟨m, hk.trans hm, hr, by rw [he, hsame]⟩
      · refine reads_of_call hb fun hidle => ?_
        have hhand := hcalling.hand
        rw [hidle] at hhand
        simp at hhand
    | printing kvs => exact reads_of_says hb (Or.inr ⟨kvs, hp⟩)
    | refusing => exact reads_of_says hb (Or.inl hp)
    | exited => exact absurd hp hn
    | reading => simp only [hp] at hbusy
    | panicked => simp only [hp] at hbusy

/-! ## One line alone -/

/-- The prompt reads, and nothing is on its way. -/
structure Quiet (c : Nat) (s : Sys L) : Prop where
  q : s.q.buf = []
  rq : s.rq.buf = []
  relay : s.relay = .idle
  pc : s.pc c = .idle
  reading : (screen c s).pc = .reading

/-- The state in which a line has just been entered. -/
def entering (c : Nat) (s : Sys L) (line : String) : Sys L :=
  { s with loc := update s.loc c ((s.loc c).1, (screen c s).enter line) }

theorem screen_entering (s : Sys L) (line : String) : screen c (entering c s line) = (screen c s).enter line := by
  simp [screen, entering]

/-- A line may be entered. -/
theorem Quiet.enters {s : Sys L} (hq : Quiet c s) {line : String} (hne : line ≠ "") :
    Steps P c lpmTrie s (entering c s line) := by
  have htau : (withPrompt P c).tau c (s.loc c) ((s.loc c).1, (screen c s).enter line) := by
    simp only [withPrompt, if_true]
    exact ⟨trivial, .enter _ line hq.reading hne⟩
  exact ⟨_, by rw [hq.reading]; nofun, .tau c _ hq.pc htau⟩

/-- From `s` to `t` the prompt has entered a line and printed `text`, and nothing else has
    happened. -/
structure Printing (c : Nat) (line text : String) (s t : Sys L) : Prop where
  quiet : Quiet c t
  srv : t.srv = s.srv
  entered : (screen c t).entered = (screen c s).entered ++ [line]
  out : (screen c t).out = (screen c s).out ++ text
  others : ∀ d, d ≠ c → t.pc d = s.pc d ∧ t.loc d = s.loc d

variable (P lpmTrie) in
/-- A line that was entered is answered while no one else does anything. -/
theorem Quiet.answers {s : Sys L} (hq : Quiet c s) {line : String} {tt : TableType} (hc : command line = .list tt)
    {kvs : List KeyValue} {text : String} (hl : s.srv.Lists tt kvs) (ht : Printed kvs text) :
    ∃ t, Lts.Reach (· = entering c s line) (Steps P c lpmTrie) t ∧ Printing c line text s t := by
  let r : Req StateCommand := ⟨c, s.issued.length, .list tt, s.issued.length⟩
  let r' : Req StateCommand := ⟨c, s.issued.length, .list tt, (s.issued ++ [r]).length⟩
  -- until the answer is there the prompt lists
  have hlive : ∀ {x : Sys L}, x.loc = (entering c s line).loc → (screen c x).pc ≠ .exited := by
    intro x hx
    simp [screen, hx, entering, Prompt.enter, hc]
  have s1 : Lts.Reach (· = entering c s line) (Steps P c lpmTrie) (entering c s line) := .init rfl
  have s2 := s1.step ⟨_, hlive rfl, .begin c (.list tt) hq.pc (by simp [withPrompt, entering, Prompt.enter, hc]) fun _ => rfl⟩
  have s3 := s2.step ⟨_, hlive rfl, .ask c r ⟨[r], (by decide : 1 ≤ cliCap)⟩
    (by simp [r, entering]) (by simp [withPrompt]) (Chan.send_eq_some.mpr (by simp [entering, hq.rq]))⟩
  have s4 := s3.step ⟨_, hlive rfl, .take r .empty hq.relay (Chan.recv_eq_some.mpr rfl)⟩
  have s5 := s4.step ⟨_, hlive rfl, .forward r r' ⟨[r'], (by decide : 1 ≤ stateCap)⟩ rfl
    (Chan.send_eq_some.mpr (by simp [entering, hq.q, r']))⟩
  have s6 := s5.step ⟨_, hlive rfl, .serve r' .empty _ _ (Chan.recv_eq_some.mpr rfl) (.list _ _ _ hl)⟩
  have s7 := s6.step ⟨_, hlive rfl, .answer r r' (.list kvs) rfl (by simp)⟩
  have s8 := s7.step ⟨_, hlive rfl, .recv c r (.list kvs) (by simp) (by simp)⟩
  have hprint : Prompt.Step (((screen c s).enter line).ret (some (.list kvs)))
      ⟨.reading, (screen c s).entered ++ [line], (screen c s).out ++ text⟩ := .print _ kvs text rfl ht
  have s9 := s8.step ⟨_, by simp [screen, entering, Prompt.enter, Prompt.ret, hc, withPrompt],
    .tau c ((s.loc c).1, ⟨.reading, (screen c s).entered ++ [line], (screen c s).out ++ text⟩) (by simp)
      (by simpa [withPrompt, entering] using hprint)⟩
  refine ⟨_, s9, ⟨rfl, rfl, rfl, by simp, by simp [screen]⟩, rfl, by simp [screen], by simp [screen], fun d hd => ?_⟩
  simp [entering, Function.update_of_ne hd]

/-- A behavior that ends there is fair. -/
theorem Quiet.fairRun {s : Sys L} (hq : Quiet c s) {n : Nat} (hb : ∀ m, n ≤ m → b.state m = s) : FairRun b := by
  refine ⟨.of_end hb ?_, .of_end hb ?_, .of_end hb ?_⟩
  · rintro ⟨t, -, ht⟩
    cases ht with
    | serve x q' u v hrecv _ =>
      rw [Chan.recv_eq_some, hq.q] at hrecv
      cases hrecv
  · rintro ⟨t, -, ht⟩
    cases ht with
    | take x q' _ hrecv =>
      rw [Chan.recv_eq_some, hq.rq] at hrecv
      cases hrecv
    | forward x x' _ hx _ => rw [hq.relay] at hx; cases hx
    | answer x x' _ hx _ => rw [hq.relay] at hx; cases hx
  · rintro ⟨t, hbusy, -⟩
    exact hbusy.elim (fun h => h hq.pc) fun h => h hq.reading

/-- While the process lasts, a step of another task leaves the prompt as it is. -/
theorem others_step {I : Sys L → Prop} {p : Prompt} (hp : p.pc ≠ .exited) {a : Agent} {s t : Sys L}
    (h : Lts.Reach I (Steps P c lpmTrie) s ∧ screen c s = p) (ha : a ≠ .client c) (hs : Mail P c lpmTrie a s t) :
    Lts.Reach I (Steps P c lpmTrie) t ∧ screen c t = p := by
  refine ⟨h.1.step ⟨a, by rw [h.2]; exact hp, hs⟩, ?_⟩
  rw [← h.2]
  exact congrArg Prod.snd ((Mailbox.step_loc hs c).resolve_right ha)

/-- A neighbor is added, and the neighbors are asked for: when the line has just been
    entered, its text is still to come. -/
theorem lines_answered_one : ∃ b : Trace anyClients 1 noRoutes, ∃ n, screen 1 (b.state n) = Prompt.init.enter "NeighborTable" ∧
    (b.state n).srv.nt.entries.lookup 7 = some .new ∧ ∃ m, n ≤ m ∧
    (screen 1 (b.state m)).entered = ["NeighborTable"] ∧ ∃ texts, Shown b m texts ∧ texts.length = 1 := by
  have hc : command "NeighborTable" = .list .neighborTable := rfl
  have h0 : Reach anyClients 1 noRoutes (Mailbox.init (server noRoutes) (withPrompt anyClients 1)) := .init rfl
  have hreading : Prompt.init.pc ≠ .exited := nofun
  obtain ⟨s, ⟨hr, hscreen⟩, hadd⟩ := Mailbox.round_of (c := 0)
    (fun a _ _ hx ha hs => others_step hreading hx (by rcases ha with rfl | ⟨rfl, -⟩ <;> nofun) hs) ⟨h0, rfl⟩
    (by decide) rfl rfl rfl (Or.inl rfl) (Serve.add (Tables.new noRoutes) (.neighbor 7 .new))
  have hq : Quiet 1 s := ⟨hadd.q, by rw [hadd.rq]; rfl, hadd.relay, by rw [hadd.pc]; rfl, by rw [hscreen]; rfl⟩
  obtain ⟨kvs, hl⟩ := s.srv.exists_lists .neighborTable
  obtain ⟨text, ht⟩ := exists_printed kvs
  obtain ⟨t, htr, hp⟩ := hq.answers anyClients noRoutes hc hl ht
  have henter : Steps anyClients 1 noRoutes s (entering 1 s "NeighborTable") := hq.enters nofun
  obtain ⟨b₀, n, hb₀⟩ := Behavior.exists_of_reach (hr.step henter)
  obtain ⟨b, k, -, hsame, hb⟩ := Behavior.exists_extend hb₀ htr
  have hn : b.state n = entering 1 s "NeighborTable" := by rw [hsame n (Nat.le_refl n), hb₀ n (Nat.le_refl n)]
  have hline : screen 1 (b.state n) = Prompt.init.enter "NeighborTable" := by rw [hn, screen_entering, hscreen]
  obtain ⟨m, hm, he, texts, hs, hlen⟩ := lines_answered (hp.quiet.fairRun hb) n (by rw [hline]; nofun)
  rw [hline] at he hlen
  refine ⟨b, n, hline, ?_, m, hm, he, texts, hs, hlen⟩
  rw [hn]
  show s.srv.nt.entries.lookup 7 = _
  rw [hadd.srv]
  rfl

end FabricRs.Cli

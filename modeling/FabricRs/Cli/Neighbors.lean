/-
  FabricRs.Cli.Neighbors — what the prompt shows of the neighbors.

  Beside the prompt run the receiver, which alone writes neighbors, and the other tasks of
  `FabricRs.UserSpace.Receiver`. Seen from these the prompt is one of the `CliClient`s that
  list at any time (`plain_step`), so what is known of their runs holds of its too.

  - `neighbors_stay`: what is printed of the neighbors are hellos from the wire, the first
    ones the receiver took, and what was shown once is shown by every later answer.
-/

import FabricRs.Cli.Prompt
import FabricRs.UserSpace.Heard

namespace FabricRs.Cli

open State
open Mailbox (Agent Prog)
open Lts (Behavior Chan)
open Function (update)
open UserSpace (NotNeighbors Receiving Shows applied applied_along heard hearAll heard_listed hello hellos mac1 mac2 oneLink
  program receive receiver_heard receiverKind shows_of_lists)

variable {L : Type} {P : Prog StateCommand Reply L} {c : Nat} {lpmTrie : LpmTrie}

/-! ## The prompt is a `CliClient` -/

/-- Client `c` lists when it likes, through the relay, and keeps nothing. -/
structure IsCliClient (P : Prog StateCommand Reply L) (c : Nat) : Prop where
  direct : P.direct c = false
  call : ∀ l tt, P.call c l (.list tt)
  ret : ∀ l cmd v, P.ret c l cmd v = l

/-- The state without the prompt's own. -/
def plain (s : Sys L) : Mailbox.St Tables StateCommand Reply L stateCap cliCap :=
  ⟨s.srv, s.q, s.rq, s.relay, s.pc, fun d => (s.loc d).1, s.one, s.issued, s.hist, s.log⟩

theorem plain_update (f : Nat → L × Prompt) (d : Nat) (l : L × Prompt) :
    (fun e => (update f d l e).1) = update (fun e => (f e).1) d l.1 := by
  funext e
  by_cases h : e = d
  · rw [h, Function.update_self, Function.update_self]
  · rw [Function.update_of_ne h, Function.update_of_ne h]

theorem withPrompt_direct (hP : IsCliClient P c) (d : Nat) : (withPrompt P c).direct d = P.direct d := by
  by_cases h : d = c
  · simp [withPrompt, h, hP.direct]
  · simp [withPrompt, h]

theorem withPrompt_ret (hP : IsCliClient P c) (d : Nat) (l : L × Prompt) (cmd : StateCommand) (v : Option Reply) :
    ((withPrompt P c).ret d l cmd v).1 = P.ret d l.1 cmd v := by
  by_cases h : d = c
  · simp [withPrompt, h, hP.ret]
  · simp [withPrompt, h]

theorem withPrompt_call (hP : IsCliClient P c) {d : Nat} {l : L × Prompt} {cmd : StateCommand}
    (h : (withPrompt P c).call d l cmd) : P.call d l.1 cmd := by
  by_cases hd : d = c
  · subst hd
    simp only [withPrompt, if_true] at h
    obtain ⟨tt, -, rfl⟩ := h
    exact hP.call _ tt
  · simpa only [withPrompt, if_neg hd] using h

/-- Every step is one of the program with a `CliClient` in the prompt's place, or leaves
    its state alone. -/
theorem plain_step (hP : IsCliClient P c) {a : Agent} {s t : Sys L} (h : Mail P c lpmTrie a s t) :
    Mailbox.Step (server lpmTrie) P a (plain s) (plain t) ∨ plain t = plain s := by
  cases h with
  | tau d l hpc hl =>
    by_cases hd : d = c
    · subst hd
      simp only [withPrompt, if_true] at hl
      refine Or.inr ?_
      unfold plain
      rw [plain_update, hl.1, Function.update_eq_self]
    · simp only [withPrompt, if_neg hd] at hl
      have hs := Mailbox.Step.tau (V := server lpmTrie) (s := plain s) d l.1 hpc hl.2
      unfold plain
      rw [plain_update]
      exact Or.inl hs
  | begin d cmd hpc hcall hw =>
    exact Or.inl (.begin d cmd hpc (withPrompt_call hP hcall) (by rw [← withPrompt_direct hP]; exact hw))
  | push d r q' hpc hd hw hq =>
    exact Or.inl (.push d r q' hpc (by rw [← withPrompt_direct hP]; exact hd) hw hq)
  | post d r q' hpc hd hw hq =>
    have hs := Mailbox.Step.post (V := server lpmTrie) (P := P) (s := plain s) d r q' hpc
      (by rw [← withPrompt_direct hP]; exact hd) hw hq
    unfold plain
    rw [plain_update, withPrompt_ret hP]
    exact Or.inl hs
  | ask d r q' hpc hd hq => exact Or.inl (.ask d r q' hpc (by rw [← withPrompt_direct hP]; exact hd) hq)
  | recv d r v hpc hone =>
    have hs := Mailbox.Step.recv (V := server lpmTrie) (P := P) (s := plain s) d r v hpc hone
    unfold plain
    rw [plain_update, withPrompt_ret hP]
    exact Or.inl hs
  | serve r q' u v hq hserve => exact Or.inl (.serve r q' u v hq hserve)
  | take r q' hr hq => exact Or.inl (.take r q' hr hq)
  | forward r r' q' hr hq => exact Or.inl (.forward r r' q' hr hq)
  | answer r r' v hr hone => exact Or.inl (.answer r r' v hr hone)

/-- And every step of another task is one beside the prompt. -/
theorem exists_step_beside {a : Agent} (ha : a ≠ .client c) {s : Sys L}
    {y : Mailbox.St Tables StateCommand Reply L stateCap cliCap} (h : Mailbox.Step (server lpmTrie) P a (plain s) y) :
    ∃ t, Mail P c lpmTrie a s t ∧ plain t = y := by
  have hne : ∀ {d}, a = .client d → d ≠ c := fun e hd => ha (by rw [e, hd])
  have hplain : ∀ (d : Nat) (l : L),
      (fun e => (update s.loc d (l, (s.loc d).2) e).1) = update (fun e => (s.loc e).1) d l := fun d l =>
    plain_update s.loc d (l, (s.loc d).2)
  have hret : ∀ {d}, d ≠ c → ∀ cmd v,
      (withPrompt P c).ret d (s.loc d) cmd v = (P.ret d (s.loc d).1 cmd v, (s.loc d).2) := by
    intro d hd cmd v
    simp [withPrompt, hd]
  cases h with
  | tau d l hpc hl =>
    have hl : P.tau d (s.loc d).1 l := hl
    have htau : (withPrompt P c).tau d (s.loc d) (l, (s.loc d).2) := by simpa [withPrompt, hne rfl] using hl
    refine ⟨_, .tau d (l, (s.loc d).2) hpc htau, ?_⟩
    simp only [plain, hplain]
  | begin d cmd hpc hcall hw =>
    have hcall : P.call d (s.loc d).1 cmd := hcall
    exact ⟨_, .begin d cmd hpc (by simpa [withPrompt, hne rfl] using hcall) (by simpa [withPrompt, hne rfl] using hw), rfl⟩
  | push d r q' hpc hd hw hq => exact ⟨_, .push d r q' hpc (by simpa [withPrompt, hne rfl] using hd) hw hq, rfl⟩
  | post d r q' hpc hd hw hq =>
    refine ⟨_, .post d r q' hpc (by simpa [withPrompt, hne rfl] using hd) hw hq, ?_⟩
    simp only [plain, hret (hne rfl), hplain]
  | ask d r q' hpc hd hq => exact ⟨_, .ask d r q' hpc (by simpa [withPrompt, hne rfl] using hd) hq, rfl⟩
  | recv d r v hpc hone =>
    refine ⟨_, .recv d r v hpc hone, ?_⟩
    simp only [plain, hret (hne rfl), hplain]
  | serve r q' u v hq hserve => exact ⟨_, .serve r q' u v hq hserve, rfl⟩
  | take r q' hr hq => exact ⟨_, .take r q' hr hq, rfl⟩
  | forward r r' q' hr hq => exact ⟨_, .forward r r' q' hr hq, rfl⟩
  | answer r r' v hr hone => exact ⟨_, .answer r r' v hr hone, rfl⟩

/-- A run with the prompt is one of the program it is added to. -/
def plainTrace (hP : IsCliClient P c) (b : Trace P c lpmTrie) : Mailbox.Trace (server lpmTrie) P stateCap cliCap :=
  b.map plain (fun s h => by rw [h]; rfl) fun _ _ _ ⟨a, _, hs⟩ => (plain_step hP hs).imp_left fun h => ⟨a, h⟩

/-! ## With the receiver -/

variable {interfaces : Interfaces} {cli : Nat → Bool}

theorem isCliClient (hc : receiverKind cli c = .cliClient) : IsCliClient (program interfaces (receiverKind cli) NotNeighbors) c where
  direct := by simp [hc]
  call l tt := (UserSpace.program_call_cliClient hc).mpr ⟨tt, rfl⟩
  ret l cmd v := UserSpace.program_ret_client (by rw [hc]; nofun)

/-- A table's text shows what is in the table at the time. -/
theorem answer_shows {s : Tables} {hs : List (U32 × NeighborInterface)} (h : s.nt = hearAll hs) {text : String}
    (ha : Answers s "NeighborTable" text) : ∃ kvs, Shows hs kvs ∧ Printed kvs text := by
  obtain ⟨kvs, hl, hp⟩ := ha
  exact ⟨kvs, shows_of_lists h hl, hp⟩

/-- Two answers to `NeighborTable`, one printed before the other: each is what is printed
    of the neighbors that hellos from the wire leave, the first ones the receiver took, and
    the later one of those of the first and maybe more. So each neighbor on the screen, and
    each MAC of it, is in every later answer too. -/
theorem neighbors_stay (hc : receiverKind cli c = .cliClient)
    {b : Trace (program interfaces (receiverKind cli) NotNeighbors) c lpmTrie} {m : Nat} {texts : List String}
    (h : Shown b m texts) {j k : Nat} (hjk : j < k) {text text' : String} (htj : texts[j]? = some text)
    (htk : texts[k]? = some text') (hj : (screen c (b.state m)).entered[j]? = some "NeighborTable")
    (hk : (screen c (b.state m)).entered[k]? = some "NeighborTable") :
    ∃ hs hs' kvs kvs', hs <+: hs' ∧ hs' <+: hellos interfaces (plain (b.state m)) ∧ Shows hs kvs ∧ Shows hs' kvs' ∧
      Printed kvs text ∧ Printed kvs' text' ∧
      ∀ id n, .neighbor id n ∈ kvs → ∃ n', .neighbor id n' ∈ kvs' ∧ ∀ mac ∈ n.interfaces, mac ∈ n'.interfaces := by
  let b' := plainTrace (isCliClient hc) b
  have hr : ∀ n, Receiving interfaces cli lpmTrie (b'.state n) := b'.reach
  obtain ⟨i, -, hi, -, ha⟩ := h.each j _ text hj htj
  obtain ⟨i', him, hi', -, ha'⟩ := h.each k _ text' hk htk
  have hii : i ≤ i' := by
    by_contra hlt
    have hle := (entered_mono b (Nat.le_of_not_le hlt)).length_le
    have hklt := (List.getElem?_eq_some_iff.mp hk).1
    rw [hi, hi', List.length_take, List.length_take] at hle
    omega
  have hpre := applied_along b' hr hii
  obtain ⟨kvs, hs, hp⟩ := answer_shows (receiver_heard (hr i)) ha
  obtain ⟨kvs', hs', hp'⟩ := answer_shows (receiver_heard (hr i')) ha'
  have htaken : applied interfaces (b'.state i') <+: hellos interfaces (b'.state m) :=
    (List.take_prefix _ _).trans (UserSpace.hellos_along b' him)
  exact ⟨_, _, kvs, kvs', hpre, htaken, hs, hs', hp, hp', hs.grows hs' hpre⟩

/-! ## A hello beside the prompt -/

/-- Nothing is on its way, and the receiver is done with its frames. -/
structure Rests (c : Nat) (s : Sys UserSpace.TaskState) : Prop where
  quiet : Quiet c s
  pc : s.pc 0 = .idle
  handler : (s.loc 0).1.handler = .idle

/-- A frame can be handled to the end while the prompt reads. -/
theorem Rests.hears (hc : receiverKind cli c = .cliClient) {I : Sys UserSpace.TaskState → Prop} {s : Sys UserSpace.TaskState}
    (h : Lts.Reach I (Steps (program interfaces (receiverKind cli) NotNeighbors) c lpmTrie) s) (hr : Rests c s) (f : Frame) :
    ∃ t, Lts.Reach I (Steps (program interfaces (receiverKind cli) NotNeighbors) c lpmTrie) t ∧ Rests c t ∧
      screen c t = screen c s ∧ t.srv.nt = receive interfaces s.srv.nt f := by
  have hp : (screen c s).pc ≠ .exited := by rw [hr.quiet.reading]; nofun
  have hk : receiverKind cli 0 = .handler := UserSpace.receiverKind_handler.mpr rfl
  have hc0 : Agent.client 0 ≠ .client c := by
    rintro ⟨rfl⟩
    rw [hc] at hk
    cases hk
  have hkeeps : UserSpace.Keeps interfaces (receiverKind cli) NotNeighbors lpmTrie (fun m => ∃ t,
      (Lts.Reach I (Steps (program interfaces (receiverKind cli) NotNeighbors) c lpmTrie) t ∧ screen c t = screen c s) ∧
        plain t = m) 0 := by
    rintro a x y ⟨t, ht, rfl⟩ ha hs
    have hne : a ≠ .client c := by rcases ha with rfl | ⟨rfl, -⟩ <;> [nofun; exact hc0]
    obtain ⟨u, hu, rfl⟩ := exists_step_beside hne hs
    exact ⟨u, others_step hp ht hne hu, rfl⟩
  have htau : (program interfaces (receiverKind cli) NotNeighbors).tau 0 ((plain s).loc 0)
      ⟨((plain s).loc 0).seen ++ [f], .start (hello interfaces f)⟩ := ⟨hk, hr.handler, f, rfl⟩
  obtain ⟨s1, hs1, htaken⟩ := exists_step_beside (s := s) hc0 (.tau 0 _ hr.pc htau)
  have hstart : (update (plain s).loc 0 ⟨((plain s).loc 0).seen ++ [f], .start (hello interfaces f)⟩ 0).handler =
      .start (hello interfaces f) := by rw [Function.update_self]
  obtain ⟨_, ⟨t, ⟨ht, hscreen⟩, rfl⟩, hend⟩ :=
    UserSpace.handle_turn hkeeps ⟨s1, others_step hp ⟨h, rfl⟩ hc0 hs1, htaken⟩ hk hr.quiet.q hr.pc hstart
  refine ⟨t, ht, ⟨⟨hend.q, ?_, ?_, ?_, ?_⟩, ?_, ?_⟩, hscreen, hend.nt⟩
  · exact (congrArg Chan.buf hend.rq).trans hr.quiet.rq
  · exact hend.relay.trans hr.quiet.relay
  · exact (congrFun hend.pc c).trans hr.quiet.pc
  · rw [hscreen]
    exact hr.quiet.reading
  · exact (congrFun hend.pc 0).trans hr.pc
  · have hloc := congrFun hend.loc 0
    rw [Function.update_self] at hloc
    exact congrArg UserSpace.TaskState.handler hloc

theorem Rests.answered {line text : String} (hc : c ≠ 0) {s t : Sys UserSpace.TaskState} (hr : Rests c s)
    (h : Printing c line text s t) : Rests c t := by
  obtain ⟨hpc, hloc⟩ := h.others 0 hc.symm
  exact ⟨h.quiet, by rw [hpc]; exact hr.pc, by rw [hloc]; exact hr.handler⟩

/-- A hello and a listing, then another hello of the node and another listing: the first
    one's MAC is on the screen each time. -/
theorem neighbors_stay_two : ∃ (b : Trace (program oneLink (receiverKind fun c => c == 1) NotNeighbors) 1 noRoutes)
    (m : Nat) (text text' : String), (screen 1 (b.state m)).out = text ++ text' ∧
    ∃ hs hs' kvs kvs', .neighbor 7 (Neighbor.new.addInterface (heard mac1)) ∈ kvs ∧
      hs <+: hs' ∧ hs' <+: hellos oneLink (plain (b.state m)) ∧ Shows hs kvs ∧ Shows hs' kvs' ∧
      Printed kvs text ∧ Printed kvs' text' ∧
      ∀ id n, .neighbor id n ∈ kvs → ∃ n', .neighbor id n' ∈ kvs' ∧ ∀ mac ∈ n.interfaces, mac ∈ n'.interfaces := by
  let P := program oneLink (receiverKind fun c => c == 1) NotNeighbors
  let line := "NeighborTable"
  have hc : command line = .list .neighborTable := rfl
  have hne : line ≠ "" := by decide
  have hkind : receiverKind (fun c => c == 1) 1 = .cliClient := rfl
  have h0 : Reach P 1 noRoutes (Mailbox.init (server noRoutes) (withPrompt P 1)) := .init rfl
  obtain ⟨s1, h1, hr1, hscreen1, hnt1⟩ := Rests.hears hkind h0 ⟨⟨rfl, rfl, rfl, rfl, rfl⟩, rfl, rfl⟩
    (UserSpace.helloFrame 1 7 0x0a00000b mac1)
  obtain ⟨kvs1, hl1⟩ := s1.srv.exists_lists .neighborTable
  obtain ⟨text1, ht1⟩ := exists_printed kvs1
  obtain ⟨t1, hans1, hp1⟩ := hr1.quiet.answers P noRoutes hc hl1 ht1
  obtain ⟨s2, h2, hr2, hscreen2, -⟩ := Rests.hears hkind hans1 (hr1.answered (by decide) hp1)
    (UserSpace.helloFrame 1 7 0x0a00000b mac2)
  obtain ⟨kvs2, hl2⟩ := s2.srv.exists_lists .neighborTable
  obtain ⟨text2, ht2⟩ := exists_printed kvs2
  obtain ⟨t2, hans2, hp2⟩ := hr2.quiet.answers P noRoutes hc hl2 ht2
  -- the behavior through the times at which the lines were entered
  obtain ⟨b0, n1, hb0⟩ := Behavior.exists_of_reach (h1.step (hr1.quiet.enters hne))
  obtain ⟨b1, n2, hn, hsame1, hb1⟩ := Behavior.exists_extend hb0 (h2.step (hr2.quiet.enters hne))
  obtain ⟨b, m, hm, hsame2, hb⟩ := Behavior.exists_extend hb1 hans2
  have hat1 : b.state n1 = entering 1 s1 line := by rw [hsame2 n1 hn, hsame1 n1 (Nat.le_refl n1), hb0 n1 (Nat.le_refl n1)]
  have hat2 : b.state n2 = entering 1 s2 line := by rw [hsame2 n2 (Nat.le_refl n2), hb1 n2 (Nat.le_refl n2)]
  have hend : b.state m = t2 := hb m (Nat.le_refl m)
  have hentered : (screen 1 (b.state m)).entered = [line, line] := by
    rw [hend, hp2.entered, hscreen2, hp1.entered, hscreen1]
    rfl
  have hout : (screen 1 (b.state m)).out = text1 ++ text2 := by
    rw [hend, hp2.out, hscreen2, hp1.out, hscreen1]
    exact congrArg (· ++ text2) (String.empty_append)
  have hshown : Shown b m [text1, text2] := by
    refine ⟨by rw [hout]; simp, fun k l text hl ht => ?_⟩
    rw [hentered] at hl ⊢
    match k, hl, ht with
    | 0, rfl, rfl =>
      refine ⟨n1, hn.trans hm, ?_, ?_, kvs1, by rw [hat1]; exact hl1, ht1⟩
      · rw [hat1, screen_entering, hscreen1]
        rfl
      · rw [hat1, screen_entering, hscreen1]
        rfl
    | 1, rfl, rfl =>
      refine ⟨n2, hm, ?_, ?_, kvs2, by rw [hat2]; exact hl2, ht2⟩
      · rw [hat2, screen_entering, hscreen2, Prompt.enter, hp1.entered, hscreen1]
        rfl
      · rw [hat2, screen_entering, hscreen2, Prompt.enter, hp1.out, hscreen1]
        rfl
  obtain ⟨hs, hs', kvs, kvs', hpre, htaken, hshows, hshows', hp, hp', hmore⟩ :=
    neighbors_stay hkind hshown Nat.zero_lt_one rfl rfl (by rw [hentered]; rfl) (by rw [hentered]; rfl)
  have hkvs : kvs = kvs1 := printed_eq hp ht1
  exact ⟨b, m, text1, text2, hout, hs, hs', kvs, kvs', by rw [hkvs]; exact heard_listed hnt1 hl1, hpre, htaken, hshows, hshows',
    hp, hp', hmore⟩

end FabricRs.Cli

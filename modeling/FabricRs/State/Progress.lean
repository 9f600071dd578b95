/-
  FabricRs.State.Progress — calls on the State actor return (`StateClient`, `CliClient`).

  `add`, `del`, `get` and `list` wait for a slot of the actor's channel, and the last two
  for their one-shot; a `CliClient`'s `list` waits behind the task of `Cli::run`, which is
  a client of the actor itself. None waits for ever: tokio gives a channel's free slots to
  the tasks that wait for them in order.
-/

import FabricRs.Lib.MailboxLive
import FabricRs.State.Linearizable

namespace FabricRs.State

open Mailbox (Prog Trace Acts Reach Req)
open Lts (Chan Behavior Enabled)

/-- Whatever the clients call, and in whatever order the tasks move: a call that was begun
    returns, and the actor carries it out exactly once, with the answer that it returned. -/
theorem calls_return {L : Type} {lpmTrie : LpmTrie} {P : Prog StateCommand Reply L}
    (b : Trace (server lpmTrie) P stateCap cliCap) (hactor : b.Fair (Acts (server lpmTrie) P .server))
    {c : Nat} (hrelay : P.direct c = false → b.Fair (Acts (server lpmTrie) P .relay))
    (hc : b.Fair (Acts (server lpmTrie) P (.client c))) {n op : Nat} {cmd : StateCommand} (hinv : .inv c op cmd ∈ (b.state n).hist) :
    ∃ m, n ≤ m ∧ ∃ r v, .ret c op v ∈ (b.state m).hist ∧ r.who = c ∧ r.op = op ∧ r.call = cmd ∧
      ∀ j, m ≤ j → (b.state j).log.filter (fun x => x.1.op = op) = [(r, v)] := by
  obtain ⟨m, hm, r, v, hret, hlog, hwho, rfl, hcall⟩ :=
    Mailbox.returns (by decide) hactor hrelay hc (by decide) hinv
  refine ⟨m, hm, r, v, hret, hwho, rfl, hcall, fun j hj => ?_⟩
  exact Mailbox.served_once (b.reach j) ((Mailbox.log_mono b hj).mem hlog)

/-- A `CliClient` lists the neighbors, and no one does anything more. -/
theorem calls_return_list : ∃ b : Trace (server noRoutes) anyClients stateCap cliCap, ∃ n,
    .inv 1 0 (.list .neighborTable) ∈ (b.state n).hist ∧
    ∃ m, n ≤ m ∧ ∃ r v, .ret 1 0 v ∈ (b.state m).hist ∧ r.who = 1 ∧ r.op = 0 ∧ r.call = .list .neighborTable ∧
      ∀ j, m ≤ j → (b.state j).log.filter (fun x => x.1.op = 0) = [(r, v)] := by
  let r : Req StateCommand := ⟨1, 0, .list .neighborTable, 0⟩
  let r' : Req StateCommand := ⟨1, 0, .list .neighborTable, 1⟩
  have hl : (Tables.new noRoutes).Lists .neighborTable [] := ⟨[], rfl, rfl⟩
  have s0 : Reach (server noRoutes) anyClients
      (Mailbox.init (server noRoutes) anyClients : Mailbox.St _ _ _ _ stateCap cliCap) := .init rfl
  have s1 := s0.step ⟨_, .begin 1 (.list .neighborTable) rfl (Or.inr ⟨_, rfl⟩) fun _ => rfl⟩
  have s2 := s1.step ⟨_, .ask 1 r ⟨[r], by decide⟩ rfl rfl (Chan.send_eq_some.mpr rfl)⟩
  have s3 := s2.step ⟨_, .take r .empty rfl (Chan.recv_eq_some.mpr rfl)⟩
  have s4 := s3.step ⟨_, .forward r r' ⟨[r'], by decide⟩ rfl (Chan.send_eq_some.mpr rfl)⟩
  have s5 := s4.step ⟨_, .serve r' .empty _ _ (Chan.recv_eq_some.mpr rfl) (.list _ _ _ hl)⟩
  have s6 := s5.step ⟨_, .answer r r' (.list []) rfl rfl⟩
  have s7 := s6.step ⟨_, .recv 1 r (.list []) rfl rfl⟩
  obtain ⟨b, n, hb⟩ := Behavior.exists_of_reach s7
  have hinv : .inv 1 0 (.list .neighborTable) ∈ (b.state n).hist := by
    rw [hb n (Nat.le_refl n)]
    exact List.mem_cons_self
  refine ⟨b, n, hinv, calls_return b (.of_end hb ?_) (fun _ => .of_end hb ?_) (.of_end hb ?_) hinv⟩
  · rintro ⟨t, ht⟩
    cases ht with
    | serve x q' u v hq _ => cases hq
  · rintro ⟨t, ht⟩
    cases ht with
    | take x q' _ hq => cases hq
    | forward x x' _ hx _ => cases hx
    | answer x x' _ hx _ => cases hx
  · rintro ⟨t, hbusy, -⟩
    exact hbusy rfl

end FabricRs.State

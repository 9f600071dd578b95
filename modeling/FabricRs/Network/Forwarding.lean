/-
  FabricRs.Network.Forwarding — what `UserSpace::run` makes of `ROUTINGTABLE`.

  The XDP program forwards by the trie that user space holds. The tasks started by
  `UserSpace::run` send the State actor neighbors and listings only, so the trie stays as
  `main` handed it over, and it comes from a program just loaded.
-/

import FabricRs.Ebpf.Access
import FabricRs.Network.Tasks

namespace FabricRs.Network

open State UserSpace SendReceive
open Memory (Buf)

variable {interfaces : Interfaces} {id : U32} {srClient : SendReceive.Client} {lpmTrie : LpmTrie}

/-- About a neighbor, or a listing. -/
def NoRoute (cmd : StateCommand) : Prop := cmd.table = .neighborTable ∨ ∃ tt, cmd = .list tt

/-- The commands of the receiver and the prompt. -/
theorem no_route {c : Nat} {l : TaskState} {cmd : StateCommand} (h : (clients interfaces).call c l cmd) : NoRoute cmd := by
  have hc := program_calls interfaces (receiverKind fun c => c == 1) (fun _ => False) c l cmd h
  unfold Calls at hc
  cases hk : receiverKind (fun c => c == 1) c with
  | handler =>
    simp only [hk] at hc
    rcases hc with ⟨id, rfl⟩ | ⟨id, n, rfl⟩
    · exact Or.inl rfl
    · exact Or.inl rfl
  | stateClient => simp only [hk] at hc
  | cliClient =>
    simp only [hk] at hc
    exact Or.inr hc

/-- Such a command leaves the routes. -/
theorem serve_routes {s t : Tables} {c : StateCommand} {r : Option Reply} (h : Serve s c t r)
    (hc : NoRoute c) : t.rt = s.rt ∧ t.ft = s.ft := by
  rcases hc with hc | ⟨tt, rfl⟩
  · obtain ⟨-, hrt, hft⟩ := serve_frame h
    rw [hc] at hrt hft
    exact ⟨hrt (by decide), hft (by decide)⟩
  · cases h
    exact ⟨rfl, rfl⟩

theorem routes_inv {s : Net} (h : Reach interfaces id srClient lpmTrie s) :
    s.mail.srv.rt = .new ∧ s.mail.srv.ft = ⟨lpmTrie⟩ := by
  refine (reach_mail h).inv (P := fun m => m.srv.rt = .new ∧ m.srv.ft = ⟨lpmTrie⟩) (fun m hm => by rw [hm]; exact ⟨rfl, rfl⟩) ?_
  intro m m' hr ih ⟨a, hs⟩
  cases hs with
  | serve r q' u v hq hsv =>
    have hk := (Mailbox.ids hr).q r (by rw [Lts.Chan.recv_eq_some.mp hq]; exact List.mem_cons_self)
    obtain ⟨h1, h2⟩ := serve_routes hsv (Mailbox.calls (fun _ _ _ hc => no_route hc) hr r hk)
    exact ⟨h1.trans ih.1, h2.trans ih.2⟩
  | _ => exact ih

/-- With no routes there is nothing to forward by. -/
theorem outcome_noRoutes {answer : U32 → Ebpf.Access.U64 → Ebpf.Access.U64} {frame out : Wire.Bytes} {verdict : U32}
    {calls : Ebpf.Access.Calls} (h : Ebpf.Access.Outcome noRoutes answer frame verdict out calls) :
    out = frame ∧ calls = [] ∧ (verdict = Ebpf.XdpAction.pass ∨ (verdict = Ebpf.XdpAction.aborted ∧ frame.length < 34)) := by
  have hget : ∀ k, noRoutes.get k = none := Lpm.Trie.empty_get
  cases h with
  | short hl => exact ⟨rfl, rfl, Or.inr ⟨rfl, by omega⟩⟩
  | shortIp _ _ hl => exact ⟨rfl, rfl, Or.inr ⟨rfl, hl⟩⟩
  | notIp _ _ => exact ⟨rfl, rfl, Or.inl rfl⟩
  | noEntry d _ _ => exact ⟨rfl, rfl, Or.inl rfl⟩
  | noNextHop d hops _ hk _ => rw [hget] at hk; cases hk
  | redirect d hops _ hk _ => rw [hget] at hk; cases hk

/-- Whatever the tasks do, no route is made and the trie stays as it was handed over. So
    with the trie of a program just loaded the XDP program forwards no frame: it passes
    each on as it came, or answers `XDP_ABORTED` to one too short for its headers. -/
theorem never_forwards {s : Net} (h : Reach interfaces id srClient lpmTrie s) :
    s.mail.srv.rt = .new ∧ s.mail.srv.ft = ⟨lpmTrie⟩ ∧
    (lpmTrie = noRoutes → ∀ (answer : U32 → Ebpf.Access.U64 → Ebpf.Access.U64) (ctx : Buf),
      ∃ verdict, (Ebpf.Access.fabricRs s.mail.srv.ft.entries answer).run (ctx, []) = some (verdict, (ctx, [])) ∧
        (verdict = Ebpf.XdpAction.pass ∨ (verdict = Ebpf.XdpAction.aborted ∧ ctx.bytes.length < 34))) := by
  obtain ⟨hrt, hft⟩ := routes_inv h
  refine ⟨hrt, hft, fun hnew answer ctx => ?_⟩
  obtain ⟨verdict, out, calls, hrun, ho⟩ := Ebpf.Access.fabricRs_outcome noRoutes answer ctx
  obtain ⟨hout, hcalls, hv⟩ := outcome_noRoutes ho
  rw [hout, hcalls] at hrun
  refine ⟨verdict, ?_, hv⟩
  rw [hft, hnew]
  exact hrun

/-- A hello was handled: there is a neighbor, and no route. -/
theorem never_forwards_hello : ∃ s : Net, entry s.mail.srv.nt 7 mac1 = some (heard mac1) ∧
    s.mail.srv.rt = .new ∧ s.mail.srv.ft = ⟨noRoutes⟩ ∧
    ∀ (answer : U32 → Ebpf.Access.U64 → Ebpf.Access.U64) (ctx : Buf),
      ∃ verdict, (Ebpf.Access.fabricRs s.mail.srv.ft.entries answer).run (ctx, []) = some (verdict, (ctx, [])) ∧
        (verdict = Ebpf.XdpAction.pass ∨ (verdict = Ebpf.XdpAction.aborted ∧ ctx.bytes.length < 34)) := by
  have h0 : Reach oneLink 9 ⟨none⟩ noRoutes (init oneLink noRoutes) := .init rfl
  obtain ⟨s, h, -, -, hnt⟩ := carried h0 init_quiet oneLink_eth1 (helloFrame 1 7 0x0a00000b mac1).msg
  have hentry : entry s.mail.srv.nt 7 mac1 = some (heard mac1) := by
    rw [hnt, show receive oneLink _ ⟨1, (helloFrame 1 7 0x0a00000b mac1).msg⟩ = _ from receive_heard _ 7 mac1]
    rfl
  obtain ⟨hrt, hft, hxdp⟩ := never_forwards h
  exact ⟨s, hentry, hrt, hft, hxdp rfl⟩

end FabricRs.Network

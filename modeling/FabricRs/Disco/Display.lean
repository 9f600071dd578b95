/-
  FabricRs.Disco.Display — what a disco packet's rendering tells (`disco-rs`).

  - `fmt_eq_iff`: the id, the IP, the op and the route headers, and nothing else: neither
    the MAC nor the bytes behind the last whole route header.
-/

import FabricRs.Display
import FabricRs.Disco.RouteHdrs

namespace FabricRs.Disco

open Text (Readable Any NoDigit)
open Wire (Bytes)

theorem readable_routeHdr : Readable NoDigit fmtRouteHdr := by
  have hhops := ((readable_ofU32.literal "ip: ").before ", hops: " rfl (Text.noDigit_cons rfl)).append (readable_word 32)
  have hlen := (hhops.before ", prefix_len: " rfl (Text.noDigit_cons rfl)).append (readable_word 8)
  exact hlen.comp (fun r => ((r.1, r.2.1), r.2.2)) (fun ⟨_, _, _⟩ ⟨_, _, _⟩ h => by cases h; rfl) fun _ => rfl

/-- Nothing follows a rendering. -/
theorem readable_routeHdrs : Readable (· = []) fmtRouteHdrs := by
  refine Readable.comp ((readable_routeHdr.literal "\n").list (fun r hr => ?_) ['\n'] (fun _ => Text.begins (by decide) _)
    (fun _ => Text.noDigit_cons rfl _) fun r hr => ?_) (fun rs => rs) Function.injective_id fun rs => ?_
  · subst hr
    intro c hc
    cases hc
  · subst hr
    decide
  · unfold fmtRouteHdrs
    simp only [String.append_assoc]

theorem readable_hdr : Readable (· = []) fun x : ((U32 × U32) × U8) × List (U32 × U32 × U8) =>
    "id: " ++ toString x.1.1.1.toNat ++ ", ip: " ++ (Ipv4Addr.ofU32 x.1.1.2).fmt ++ ", op: " ++ toString x.1.2.toNat ++
      ", rh:\n" ++ fmtRouteHdrs x.2 := by
  have hip := (((readable_word 32).literal "id: ").before ", ip: " rfl (Text.noDigit_cons rfl)).append readable_ofU32
  have hop := (hip.before ", op: " rfl (Text.noDigit_cons rfl)).append (readable_word 8)
  exact (hop.before ", rh:\n" rfl (Text.noDigit_cons rfl)).append readable_routeHdrs

/-- The whole route headers of a payload. -/
def wholeHdrs (payload : Bytes) : List (U32 × U32 × U8) :=
  Wire.records DiscoRouteHdrPacket.hdr (numberOfRouteHdrs payload) payload

theorem wholeHdrs_eq_iff (l l' : Bytes) :
    wholeHdrs l = wholeHdrs l' ↔ l.take (9 * (l.length / 9)) = l'.take (9 * (l'.length / 9)) := by
  have henc : ∀ l, Wire.encAll DiscoRouteHdrPacket.hdr (wholeHdrs l) = l.take (9 * (l.length / 9)) := by
    intro l
    have hfit : numberOfRouteHdrs l * 9 ≤ l.length := Nat.div_mul_le_self _ _
    rw [wholeHdrs, Wire.encAll_records DiscoRouteHdrPacket.hdr hfit, Nat.mul_comm]
    rfl
  have hdec : ∀ l, Wire.records DiscoRouteHdrPacket.hdr (wholeHdrs l).length (l.take (9 * (l.length / 9))) = wholeHdrs l := by
    intro l
    rw [← henc, ← List.append_nil (Wire.encAll _ _), Wire.records_encAll]
  refine ⟨fun h => by rw [← henc, ← henc, h], fun h => ?_⟩
  have hlen : (wholeHdrs l).length = (wholeHdrs l').length := by
    have h9 := congrArg List.length h
    have hl := Nat.div_mul_le_self l.length 9
    have hl' := Nat.div_mul_le_self l'.length 9
    simp only [List.length_take] at h9
    simp only [wholeHdrs, Wire.length_records, numberOfRouteHdrs]
    omega
  rw [← hdec l, ← hdec l', hlen, h]

/-- Two packets are rendered alike exactly if they have the same id, IP and op, and the
    same bytes up to the end of the last whole route header. -/
theorem fmt_eq_iff (p q : DiscoHdrPacket) : p.fmt = q.fmt ↔
    p.getId = q.getId ∧ p.getIp = q.getIp ∧ p.getOp = q.getOp ∧
      p.payload.take (9 * (p.payload.length / 9)) = q.payload.take (9 * (q.payload.length / 9)) := by
  have hfmt : ∀ p : DiscoHdrPacket, p.fmt = some (fmtHdr p (fmtRouteHdrs (wholeHdrs p.payload))) := by
    intro p
    unfold DiscoHdrPacket.fmt
    rw [routeHdrStr_eq]
    rfl
  rw [hfmt, hfmt, Option.some.injEq, ← wholeHdrs_eq_iff]
  constructor
  · intro h
    have hx := (readable_hdr (((p.getId, p.getIp), p.getOp), wholeHdrs p.payload)
      (((q.getId, q.getIp), q.getOp), wholeHdrs q.payload) [] [] rfl rfl
      (congrArg (· ++ []) (String.toList_inj.mpr h))).1
    simp only [Prod.mk.injEq] at hx
    obtain ⟨⟨⟨h1, h2⟩, h3⟩, h4⟩ := hx
    exact ⟨h1, h2, h3, h4⟩
  · rintro ⟨h1, h2, h3, h4⟩
    unfold fmtHdr
    rw [h1, h2, h3, h4]

end FabricRs.Disco

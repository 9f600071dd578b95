/-
  FabricRs.Display — how addresses are written (`Display` of `Ipv4Addr`, pnet's `MacAddr`).

  An IP address is four decimal numbers with dots between them, and ends where the last
  one does; a MAC is six pairs of hex digits with colons, always as wide.
-/

import FabricRs.Basic
import FabricRs.Lib.Text

namespace FabricRs

open Text (Readable Any NoDigit)

/-- `{:02x}`. -/
def hex2 (b : U8) : String := String.ofList [Nat.digitChar (b.toNat / 16), Nat.digitChar (b.toNat % 16)]

/-- `Display`. -/
def MacAddr.fmt (m : MacAddr) : String :=
  hex2 m.a ++ ":" ++ hex2 m.b ++ ":" ++ hex2 m.c ++ ":" ++ hex2 m.d ++ ":" ++ hex2 m.e ++ ":" ++ hex2 m.f

theorem digitChar_inj : ∀ m < 16, ∀ n < 16, Nat.digitChar m = Nat.digitChar n → m = n := by decide

theorem readable_hex2 : Readable Any hex2 := by
  refine Text.readable_width (n := 2) (fun b => by rw [hex2, String.toList_ofList]; rfl) fun b b' h => ?_
  have h := String.toList_inj.mpr h
  simp only [hex2, String.toList_ofList, List.cons.injEq, and_true] at h
  have hb := b.isLt
  have hb' := b'.isLt
  have h1 := digitChar_inj _ (by omega) _ (by omega) h.1
  have h2 := digitChar_inj _ (by omega) _ (by omega) h.2
  exact BitVec.eq_of_toNat_eq (by omega)

theorem readable_mac : Readable Any MacAddr.fmt := by
  have h2 := (readable_hex2.before ":" rfl fun _ => trivial).append readable_hex2
  have h3 := (h2.before ":" rfl fun _ => trivial).append readable_hex2
  have h4 := (h3.before ":" rfl fun _ => trivial).append readable_hex2
  have h5 := (h4.before ":" rfl fun _ => trivial).append readable_hex2
  have h6 := (h5.before ":" rfl fun _ => trivial).append readable_hex2
  refine h6.comp (fun m => (((((m.a, m.b), m.c), m.d), m.e), m.f)) (fun m m' h => ?_) fun _ => rfl
  cases m
  cases m'
  cases h
  rfl

/-- A machine word in decimal. -/
theorem readable_word (w : Nat) : Readable NoDigit fun x : BitVec w => toString x.toNat :=
  Text.readable_nat.comp BitVec.toNat (fun _ _ => BitVec.eq_of_toNat_eq) fun _ => rfl

theorem readable_ip : Readable NoDigit Ipv4Addr.fmt := by
  have h2 := ((readable_word 8).before "." rfl (Text.noDigit_cons rfl)).append (readable_word 8)
  have h3 := (h2.before "." rfl (Text.noDigit_cons rfl)).append (readable_word 8)
  have h4 := (h3.before "." rfl (Text.noDigit_cons rfl)).append (readable_word 8)
  refine h4.comp (fun ip => (((ip.a, ip.b), ip.c), ip.d)) (fun ip ip' h => ?_) fun _ => rfl
  cases ip
  cases ip'
  cases h
  rfl

theorem Ipv4Addr.toU32_ofU32 (x : U32) : (Ipv4Addr.ofU32 x).toU32 = x := Wire.u32be.dec_enc x

/-- An address kept as a number. -/
theorem readable_ofU32 : Readable NoDigit fun x : U32 => (Ipv4Addr.ofU32 x).fmt :=
  readable_ip.comp Ipv4Addr.ofU32 (Function.LeftInverse.injective Ipv4Addr.toU32_ofU32) fun _ => rfl

end FabricRs

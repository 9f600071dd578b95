/-
  FabricRs.Lib.Memory — a buffer in memory, read and written through pointers.

  A `Buf` is some bytes and the address of the first. A program over it (`Mem`) may keep a
  state of its own besides; an access that does not lie in the buffer, all of it, is a
  fault (`none`), so a run with a result made none. Inside, a load is the field at the
  pointer's offset and a store sets it (`load_run`, `store_run`); `bind_run` runs a
  program one access at a time.
-/

import FabricRs.Lib.Wire

namespace FabricRs.Memory

open Wire (Byte Bytes Codec)

structure Buf where
  base : Nat
  bytes : Bytes

/-- The address past the last byte. -/
def Buf.limit (b : Buf) : Nat := b.base + b.bytes.length

abbrev Mem (σ α : Type) := StateT (Buf × σ) Option α

variable {σ α β : Type}

/-- The field at address `p`. -/
def load (c : Codec α) (p : Nat) : Mem σ α := fun s =>
  if s.1.base ≤ p ∧ p + c.width ≤ s.1.limit then some (Wire.get c (p - s.1.base) s.1.bytes, s) else none

def store (c : Codec α) (p : Nat) (a : α) : Mem σ Unit := fun s =>
  if s.1.base ≤ p ∧ p + c.width ≤ s.1.limit then
    some ((), ⟨s.1.base, Wire.put c (p - s.1.base) a s.1.bytes⟩, s.2)
  else none

theorem bind_run {x : Mem σ α} {f : α → Mem σ β} {s s' : Buf × σ} {a : α} (h : x.run s = some (a, s')) :
    (x >>= f).run s = (f a).run s' := by
  rw [StateT.run_bind, h]
  rfl

theorem inside {b : Buf} {off w : Nat} (h : off + w ≤ b.bytes.length) :
    b.base ≤ b.base + off ∧ b.base + off + w ≤ b.limit :=
  ⟨by omega, by unfold Buf.limit; omega⟩

theorem load_run {c : Codec α} {off : Nat} {b : Buf} {x : σ} (h : off + c.width ≤ b.bytes.length) :
    (load c (b.base + off)).run (b, x) = some (Wire.get c off b.bytes, (b, x)) := by
  refine (if_pos (inside h)).trans ?_
  rw [Nat.add_sub_cancel_left]

theorem store_run {c : Codec α} {off : Nat} {a : α} {b : Buf} {x : σ} (h : off + c.width ≤ b.bytes.length) :
    (store c (b.base + off) a).run (b, x) = some ((), (⟨b.base, Wire.put c off a b.bytes⟩, x)) := by
  refine (if_pos (inside h)).trans ?_
  rw [Nat.add_sub_cancel_left]

/-! ## Byte by byte -/

/-- The bytes `bs` to `p` and on. -/
def storeBytes (p : Nat) : Bytes → Mem σ Unit
  | [] => pure ()
  | b :: bs => do
    store Wire.u8 p b
    storeBytes (p + 1) bs

/-- A read of each of `n` bytes from `p` on. -/
def readBytes (p : Nat) : Nat → Mem σ Unit
  | 0 => pure ()
  | n + 1 => do
    let _ ← load Wire.u8 p
    readBytes (p + 1) n

theorem storeBytes_run {off : Nat} {bs : Bytes} {b : Buf} {x : σ} (h : off + bs.length ≤ b.bytes.length) :
    (storeBytes (b.base + off) bs).run (b, x) = some ((), (⟨b.base, Wire.splice off bs b.bytes⟩, x)) := by
  induction bs generalizing off b with
  | nil =>
    have hnil : Wire.splice off [] b.bytes = b.bytes := by
      rw [Wire.splice, List.append_nil, List.length_nil, Nat.add_zero, List.take_append_drop]
    rw [hnil]
    rfl
  | cons a bs ih =>
    rw [List.length_cons] at h
    have h1 : off + Wire.u8.width ≤ b.bytes.length := by show off + 1 ≤ _; omega
    have hb : Wire.splice (off + 1) bs (Wire.put Wire.u8 off a b.bytes) = Wire.splice off (a :: bs) b.bytes :=
      @Wire.splice_splice off [a] bs b.bytes (by omega)
    rw [storeBytes, bind_run (store_run h1), ← hb, Nat.add_assoc]
    refine @ih (off + 1) ⟨b.base, Wire.put Wire.u8 off a b.bytes⟩ ?_
    show _ ≤ (Wire.put Wire.u8 off a b.bytes).length
    rw [Wire.length_put h1]
    omega

theorem readBytes_run {off n : Nat} {b : Buf} {x : σ} (h : off + n ≤ b.bytes.length) :
    (readBytes (b.base + off) n).run (b, x) = some ((), (b, x)) := by
  induction n generalizing off with
  | zero => rfl
  | succ n ih =>
    have h1 : off + Wire.u8.width ≤ b.bytes.length := by show off + 1 ≤ _; omega
    rw [readBytes, bind_run (load_run h1), Nat.add_assoc]
    exact ih (by omega)

end FabricRs.Memory

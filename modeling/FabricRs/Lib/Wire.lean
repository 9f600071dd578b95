/-
  FabricRs.Lib.Wire — fixed-width fields of a byte buffer.

  A `Codec` is a type whose values are exactly the byte strings of one width; codecs
  compose side by side (`prod`), so a header's width is the sum of its fields'. A field
  is read (`get`) and written (`put`) at an offset; a write is seen by a read of the same
  field (`get_put`), by no read of a disjoint one (`get_put_ne`), and keeps the buffer's
  length (`length_put`). A `Packet` is a buffer that carries the proof that it holds the
  fixed fields of a header.
-/

import Mathlib.Data.List.Basic
import Mathlib.Tactic.Ring

namespace FabricRs.Wire

abbrev Byte := BitVec 8
abbrev Bytes := List Byte

structure Codec (α : Type) where
  width : Nat
  enc : α → Bytes
  dec : Bytes → α
  enc_length : ∀ a, (enc a).length = width
  dec_enc : ∀ a, dec (enc a) = a
  /-- Every byte string of the width is an encoding. -/
  enc_dec : ∀ l, l.length = width → enc (dec l) = l

attribute [simp] Codec.enc_length Codec.dec_enc

variable {α β : Type}

namespace Codec

/-- Two fields side by side. -/
def prod (c : Codec α) (d : Codec β) : Codec (α × β) where
  width := c.width + d.width
  enc p := c.enc p.1 ++ d.enc p.2
  dec l := (c.dec (l.take c.width), d.dec (l.drop c.width))
  enc_length p := by simp
  dec_enc p := by
    have h := c.enc_length p.1
    simp [List.take_left' h, List.drop_left' h]
  enc_dec l h := by
    have h1 : (l.take c.width).length = c.width := by simp; omega
    have h2 : (l.drop c.width).length = d.width := by simp; omega
    simp only [c.enc_dec _ h1, d.enc_dec _ h2, List.take_append_drop]

end Codec

/-! ## Big-endian words -/

def u8 : Codec Byte where
  width := 1
  enc b := [b]
  dec l := l.headD 0
  enc_length _ := rfl
  dec_enc _ := rfl
  enc_dec l h := by
    obtain ⟨a, rfl⟩ := List.length_eq_one_iff.mp h
    rfl

/-- The `i`-th byte of a word, counted from its least significant. -/
def octet {w : Nat} (x : BitVec w) (i : Nat) : Byte := x.extractLsb' (8 * i) 8

@[simp] theorem getLsbD_octet {w : Nat} (x : BitVec w) (i j : Nat) :
    (octet x i).getLsbD j = (decide (j < 8) && x.getLsbD (8 * i + j)) := by
  simp [octet]

theorem octet_append_low {w : Nat} (x : BitVec w) (y : Byte) : octet (x ++ y) 0 = y := by
  apply BitVec.eq_of_getLsbD_eq
  intro j hj
  rw [getLsbD_octet, BitVec.getLsbD_append]
  simp [hj]

theorem octet_append_high {w : Nat} (x : BitVec w) (y : Byte) (i : Nat) : octet (x ++ y) (i + 1) = octet x i := by
  apply BitVec.eq_of_getLsbD_eq
  intro j hj
  have h1 : ¬ 8 * (i + 1) + j < 8 := by omega
  have h2 : 8 * (i + 1) + j - 8 = 8 * i + j := by omega
  rw [getLsbD_octet, getLsbD_octet, BitVec.getLsbD_append, if_neg h1, h2]

theorem octet_zero (x : Byte) : octet x 0 = x := by
  apply BitVec.eq_of_getLsbD_eq
  intro j hj
  rw [getLsbD_octet]
  simp [hj]

/-- Cutting the low byte off a word and putting it back. -/
theorem octets_append {w : Nat} (x : BitVec (w + 8)) : (x.extractLsb' 8 w ++ octet x 0 : BitVec (w + 8)) = x := by
  apply BitVec.eq_of_getLsbD_eq
  intro j hj
  rw [BitVec.getLsbD_append, getLsbD_octet]
  split
  · simp [*]
  · have h1 : j - 8 < w := by omega
    have h2 : 8 + (j - 8) = j := by omega
    simp [h1, h2]

def u16be : Codec (BitVec 16) where
  width := 2
  enc x := [octet x 1, octet x 0]
  dec l := l.getD 0 0 ++ l.getD 1 0
  enc_length _ := rfl
  dec_enc x := octets_append (w := 8) x
  enc_dec l h := by
    obtain ⟨a, b, rfl⟩ := List.length_eq_two.mp h
    simp only [List.getD_cons_zero, List.getD_cons_succ]
    rw [octet_append_low, octet_append_high a b 0, octet_zero]

def u32be : Codec (BitVec 32) where
  width := 4
  enc x := [octet x 3, octet x 2, octet x 1, octet x 0]
  dec l := l.getD 0 0 ++ l.getD 1 0 ++ l.getD 2 0 ++ l.getD 3 0
  enc_length _ := rfl
  dec_enc x := by
    apply BitVec.eq_of_getLsbD_eq
    intro j hj
    simp only [List.getD_cons_zero, List.getD_cons_succ, BitVec.getLsbD_append, getLsbD_octet]
    -- one byte of the word for each of the four ranges `j` can lie in
    split
    · simp [*]
    split
    · have h2 : 8 + (j - 8) = j := by omega
      simp [*]
    split
    · have h2 : 16 + (j - 8 - 8) = j := by omega
      simp [*]
    · have h1 : j - 8 - 8 - 8 < 8 := by omega
      have h2 : 24 + (j - 8 - 8 - 8) = j := by omega
      simp [h1, h2]
  enc_dec l h := by
    obtain ⟨a, b, c, d, rfl⟩ : ∃ a b c d, l = [a, b, c, d] := by
      match l, h with
      | [a, b, c, d], _ => exact ⟨a, b, c, d, rfl⟩
    simp only [List.getD_cons_zero, List.getD_cons_succ]
    rw [octet_append_low, octet_append_high _ d 0, octet_append_high _ d 1, octet_append_high _ d 2,
      octet_append_low, octet_append_high _ c 0, octet_append_high _ c 1, octet_append_low,
      octet_append_high _ b 0, octet_zero]

/-- A word in little-endian memory. -/
def u32le : Codec (BitVec 32) where
  width := 4
  enc x := (u32be.enc x).reverse
  dec l := u32be.dec l.reverse
  enc_length x := by rw [List.length_reverse]; exact u32be.enc_length x
  dec_enc x := by rw [List.reverse_reverse, u32be.dec_enc]
  enc_dec l h := by rw [u32be.enc_dec l.reverse (by rw [List.length_reverse]; exact h), List.reverse_reverse]

/-! ## Fields of a buffer -/

/-- The field at `off`. -/
def get (c : Codec α) (off : Nat) (buf : Bytes) : α := c.dec ((buf.drop off).take c.width)

/-- The buffer with `vals` copied over the bytes from `off` on. -/
def splice (off : Nat) (vals buf : Bytes) : Bytes := buf.take off ++ vals ++ buf.drop (off + vals.length)

/-- The buffer with the field at `off` set to `a`. -/
def put (c : Codec α) (off : Nat) (a : α) (buf : Bytes) : Bytes := splice off (c.enc a) buf

theorem length_splice {off : Nat} {vals buf : Bytes} (h : off + vals.length ≤ buf.length) :
    (splice off vals buf).length = buf.length := by
  simp [splice]; omega

theorem length_put {c : Codec α} {off : Nat} {a : α} {buf : Bytes} (h : off + c.width ≤ buf.length) :
    (put c off a buf).length = buf.length :=
  length_splice (by simpa using h)

theorem get_put {c : Codec α} {off : Nat} {a : α} {buf : Bytes} (h : off ≤ buf.length) :
    get c off (put c off a buf) = a := by
  have h1 : (buf.take off).length = off := by simp [h]
  rw [get, put, splice, List.append_assoc, List.drop_left' h1, List.take_left' (c.enc_length a), c.dec_enc]

/-- A write where a prefix ends. -/
theorem splice_append {off : Nat} {vals l rest : Bytes} (h : l.length = off) :
    splice off vals (l ++ rest) = l ++ (vals ++ rest.drop vals.length) := by
  rw [splice, List.take_left' h, ← List.drop_drop, List.drop_left' h, List.append_assoc]

/-- Two writes next to one another are one. -/
theorem splice_splice {off : Nat} {a b buf : Bytes} (h : off ≤ buf.length) :
    splice (off + a.length) b (splice off a buf) = splice off (a ++ b) buf := by
  have hl : (buf.take off ++ a).length = off + a.length := by simp [h]
  rw [splice.eq_def off a, splice_append hl, List.drop_drop, splice, List.length_append, ← Nat.add_assoc]
  simp only [List.append_assoc]

/-- A write is not seen outside the bytes it wrote. -/
theorem take_drop_splice {off off' n : Nat} {vals buf : Bytes} (h : off ≤ buf.length)
    (hd : off' + n ≤ off ∨ off + vals.length ≤ off') :
    ((splice off vals buf).drop off').take n = (buf.drop off').take n := by
  have h1 : (buf.take off).length = off := by simp [h]
  rcases hd with hd | hd
  · rw [splice, List.append_assoc, List.drop_append_of_le_length (by omega),
      List.take_append_of_le_length (by simp; omega), List.drop_take, List.take_take]
    congr 1; omega
  · have h2 : (buf.take off ++ vals).length = off + vals.length := by simp [h]
    obtain ⟨k, rfl⟩ : ∃ k, off' = off + vals.length + k := ⟨off' - (off + vals.length), by omega⟩
    rw [splice, ← h2, List.drop_length_add_append, List.drop_drop]

/-- From past its last byte on, a write is not seen. -/
theorem drop_splice {off off' : Nat} {vals buf : Bytes} (h : off ≤ buf.length) (hd : off + vals.length ≤ off') :
    (splice off vals buf).drop off' = buf.drop off' := by
  have h1 : (buf.take off ++ vals).length = off + vals.length := by simp [h]
  obtain ⟨k, rfl⟩ : ∃ k, off' = off + vals.length + k := ⟨off' - (off + vals.length), by omega⟩
  rw [splice, ← h1, List.drop_length_add_append, List.drop_drop]

theorem get_put_ne {c : Codec α} {d : Codec β} {off off' : Nat} {a : α} {buf : Bytes} (h : off ≤ buf.length)
    (hd : off' + d.width ≤ off ∨ off + c.width ≤ off') : get d off' (put c off a buf) = get d off' buf := by
  rw [get, put, take_drop_splice h (by simpa using hd), ← get]

/-- A field that starts where a prefix ends. -/
theorem get_append (c : Codec α) (off : Nat) (l : Bytes) (a : α) (rest : Bytes) (h : l.length = off) :
    get c off (l ++ (c.enc a ++ rest)) = a := by
  rw [get, List.drop_left' h, List.take_left' (c.enc_length a), c.dec_enc]

/-- From where a field starts, a buffer that holds it goes on with the field's encoding. -/
theorem drop_field (c : Codec α) (off : Nat) {l : Bytes} (h : off + c.width ≤ l.length) :
    l.drop off = c.enc (get c off l) ++ l.drop (off + c.width) := by
  have h1 : ((l.drop off).take c.width).length = c.width := by simp; omega
  rw [get, c.enc_dec _ h1, ← List.drop_drop, List.take_append_drop]

/-! ## Packets -/

/-- A buffer that holds the `min` bytes of a header's fixed fields. -/
structure Packet (min : Nat) where
  packet : Bytes
  fits : min ≤ packet.length

namespace Packet

variable {min : Nat}

def new (min : Nat) (buf : Bytes) : Option (Packet min) := if h : min ≤ buf.length then some ⟨buf, h⟩ else none

def get (c : Codec α) (off : Nat) (p : Packet min) : α := Wire.get c off p.packet

def set (c : Codec α) (off : Nat) (h : off + c.width ≤ min) (a : α) (p : Packet min) : Packet min :=
  ⟨put c off a p.packet, by rw [length_put (Nat.le_trans h p.fits)]; exact p.fits⟩

/-- What follows the fixed fields. -/
def payload (p : Packet min) : Bytes := p.packet.drop min

/-- The packet with `vals` copied to the head of its payload; `none` where they do not fit. -/
def setPayload (vals : Bytes) (p : Packet min) : Option (Packet min) :=
  if h : min + vals.length ≤ p.packet.length then
    some ⟨splice min vals p.packet, by rw [length_splice h]; exact p.fits⟩
  else none

section set

variable {c : Codec α} {d : Codec β} {off off' : Nat} {h : off + c.width ≤ min} {a : α} {p : Packet min}

theorem get_set : (p.set c off h a).get c off = a :=
  get_put (Nat.le_trans (Nat.le_of_add_right_le h) p.fits)

theorem get_set_ne (hd : off' + d.width ≤ off ∨ off + c.width ≤ off') : (p.set c off h a).get d off' = p.get d off' :=
  get_put_ne (Nat.le_trans (Nat.le_of_add_right_le h) p.fits) hd

/-- A field's setter keeps the payload. -/
theorem payload_set : (p.set c off h a).payload = p.payload :=
  drop_splice (Nat.le_trans (Nat.le_of_add_right_le h) p.fits) (by rw [c.enc_length]; exact h)

end set

theorem setPayload_eq_some {vals : Bytes} {p q : Packet min} :
    p.setPayload vals = some q ↔ min + vals.length ≤ p.packet.length ∧ q.packet = splice min vals p.packet := by
  unfold setPayload
  by_cases h : min + vals.length ≤ p.packet.length
  · rw [dif_pos h, Option.some.injEq]
    cases q
    simp only [mk.injEq]
    exact ⟨fun e => ⟨h, e.symm⟩, fun e => e.2.symm⟩
  · rw [dif_neg h]
    simp [h]

theorem new_isSome {buf : Bytes} : (new min buf).isSome ↔ min ≤ buf.length := by
  unfold new
  by_cases h : min ≤ buf.length
  · simp [h]
  · simp [h]

theorem new_eq_some {buf : Bytes} {p : Packet min} : new min buf = some p ↔ p.packet = buf := by
  unfold new
  by_cases h : min ≤ buf.length
  · rw [dif_pos h, Option.some.injEq]
    cases p
    simp only [mk.injEq]
    exact eq_comm
  · rw [dif_neg h]
    have : p.packet ≠ buf := fun e => h (e ▸ p.fits)
    simp [this]

theorem exists_new {buf : Bytes} (h : min ≤ buf.length) :
    ∃ p : Packet min, new min buf = some p ∧ p.packet = buf ∧ p.payload = buf.drop min :=
  ⟨⟨buf, h⟩, new_eq_some.mpr rfl, rfl, rfl⟩

end Packet

end FabricRs.Wire

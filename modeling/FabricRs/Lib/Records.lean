/-
  FabricRs.Lib.Records — records of one width, one after another in a buffer.

  `encAll` writes a list of records, `records n` reads the first `n`. A buffer without a
  count holds as many as its length has room for, and what is left over is not a record.
  - `encAll_records`: the records read are the bytes they were read from.
  - `records_encAll_append`: reading on past the records written gives those, and then
    whatever the bytes after them happen to decode to.

  `slice` and `tryInto` are the checked accesses a loop over such a buffer makes.
-/

import Mathlib.Data.List.Induction
import FabricRs.Lib.Wire

namespace FabricRs.Wire

variable {α β : Type}

section records

variable (c : Codec α)

/-- The records `as` side by side. -/
def encAll (as : List α) : Bytes := as.flatMap c.enc

/-- The record at index `i`. -/
def record (buf : Bytes) (i : Nat) : α := get c (i * c.width) buf

/-- The first `n` records. -/
def records (n : Nat) (buf : Bytes) : List α := (List.range n).map (record c buf)

@[simp] theorem encAll_nil : encAll c [] = [] := rfl

@[simp] theorem encAll_cons (a : α) (as : List α) : encAll c (a :: as) = c.enc a ++ encAll c as := rfl

theorem encAll_append (as bs : List α) : encAll c (as ++ bs) = encAll c as ++ encAll c bs := by
  simp [encAll]

@[simp] theorem length_encAll (as : List α) : (encAll c as).length = as.length * c.width := by
  induction as with
  | nil => simp
  | cons a as ih => rw [encAll_cons, List.length_append, c.enc_length, ih, List.length_cons]; ring

@[simp] theorem length_records (n : Nat) (buf : Bytes) : (records c n buf).length = n := by
  simp [records]

theorem record_drop (buf : Bytes) (m i : Nat) : record c (buf.drop (m * c.width)) i = record c buf (m + i) := by
  unfold record get
  rw [List.drop_drop, Nat.add_mul]

theorem records_add (m n : Nat) (buf : Bytes) :
    records c (m + n) buf = records c m buf ++ records c n (buf.drop (m * c.width)) := by
  unfold records
  rw [List.range_add, List.map_append, List.map_map]
  congr 1
  exact List.map_congr_left fun i _ => (record_drop c buf m i).symm

theorem records_succ (n : Nat) (buf : Bytes) : records c (n + 1) buf = records c n buf ++ [record c buf n] := by
  unfold records
  rw [List.range_succ, List.map_append, List.map_singleton]

/-- Read and written back, records are the bytes they were read from. -/
theorem encAll_records {n : Nat} {buf : Bytes} (h : n * c.width ≤ buf.length) :
    encAll c (records c n buf) = buf.take (n * c.width) := by
  induction n with
  | zero => simp [records]
  | succ n ih =>
    rw [Nat.succ_mul] at h
    have hw : ((buf.drop (n * c.width)).take c.width).length = c.width := by
      rw [List.length_take, List.length_drop]
      omega
    rw [records_succ, encAll_append, ih (by omega), Nat.succ_mul, List.take_add]
    congr 1
    rw [encAll_cons, encAll_nil, List.append_nil]
    exact c.enc_dec _ hw

theorem records_encAll (as : List α) (rest : Bytes) : records c as.length (encAll c as ++ rest) = as := by
  induction as with
  | nil => rfl
  | cons a as ih =>
    have hd : (c.enc a ++ (encAll c as ++ rest)).drop (1 * c.width) = encAll c as ++ rest := by
      rw [Nat.one_mul]
      exact List.drop_left' (c.enc_length a)
    have h0 : record c (c.enc a ++ (encAll c as ++ rest)) 0 = a := by
      unfold record
      rw [Nat.zero_mul]
      exact get_append c 0 [] a _ rfl
    rw [encAll_cons, List.append_assoc, List.length_cons, Nat.add_comm, records_add, hd, ih]
    show [record c _ 0] ++ as = a :: as
    rw [h0]
    rfl

/-- Bytes after the records are read as records too, as far as they go. -/
theorem records_encAll_append (as : List α) (rest : Bytes) (hw : 0 < c.width) :
    records c ((encAll c as ++ rest).length / c.width) (encAll c as ++ rest) =
      as ++ records c (rest.length / c.width) rest := by
  have hn : (encAll c as ++ rest).length / c.width = as.length + rest.length / c.width := by
    rw [List.length_append, length_encAll, Nat.add_comm, Nat.add_mul_div_right _ _ hw, Nat.add_comm]
  have hd : (encAll c as ++ rest).drop (as.length * c.width) = rest := List.drop_left' (length_encAll c as)
  rw [hn, records_add, records_encAll, hd]

end records

/-! ## Checked accesses -/

/-- `&buf[start..end]`; `none` where it panics. -/
def slice (buf : Bytes) (start stop : Nat) : Option Bytes :=
  if start ≤ stop ∧ stop ≤ buf.length then some ((buf.drop start).take (stop - start)) else none

/-- `try_into().unwrap()` of a slice as an array of `n` bytes. -/
def tryInto (n : Nat) (buf : Bytes) : Option Bytes := if buf.length = n then some buf else none

/-- The slice a record of width `w` lies in. -/
theorem slice_record {buf : Bytes} {i w : Nat} (h : (i + 1) * w ≤ buf.length) :
    slice buf (i * w) (i * w + w) = some ((buf.drop (i * w)).take w) := by
  rw [Nat.succ_mul] at h
  unfold slice
  rw [if_pos ⟨by omega, h⟩, Nat.add_sub_cancel_left]

/-- The indices of the whole records of a buffer. -/
theorem record_fits {len w i : Nat} (h : i < len / w) : (i + 1) * w ≤ len :=
  Nat.le_trans (Nat.mul_le_mul_right w h) (Nat.div_mul_le_self len w)

/-! ## Loops that do not panic -/

/-- A loop each turn of which has a result, known by its image under `g`. -/
theorem mapM_map {γ : Type} {f : α → Option β} {g : β → γ} {k : α → γ} {l : List α}
    (h : ∀ a ∈ l, ∃ b, f a = some b ∧ g b = k a) : ∃ bs, l.mapM f = some bs ∧ bs.map g = l.map k := by
  induction l with
  | nil => exact ⟨[], rfl, rfl⟩
  | cons a l ih =>
    obtain ⟨b, hb, hg⟩ := h a List.mem_cons_self
    obtain ⟨bs, hbs, hk⟩ := ih fun c hc => h c (List.mem_cons_of_mem a hc)
    refine ⟨b :: bs, ?_, by rw [List.map_cons, List.map_cons, hg, hk]⟩
    rw [List.mapM_cons, hb, hbs]
    rfl

theorem foldlM_eq_foldl {f : β → α → Option β} {g : β → α → β} {l : List α} (h : ∀ b, ∀ a ∈ l, f b a = some (g b a))
    (b : β) : l.foldlM f b = some (l.foldl g b) := by
  induction l generalizing b with
  | nil => rfl
  | cons a l ih =>
    rw [List.foldlM_cons, h b a List.mem_cons_self]
    exact ih (fun b' a' ha => h b' a' (List.mem_cons_of_mem a ha)) (g b a)

end FabricRs.Wire

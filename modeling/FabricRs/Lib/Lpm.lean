/-
  FabricRs.Lib.Lpm — longest-prefix match.

  A key is a length and some data; `bit d i` is the data's `i`-th bit, in whatever order
  the store reads them. A key stands for the string of its first `len` bits.

  Abstractly (`installed`) a history of adds and removes leaves a partial function from
  bit strings to values, and a lookup answers at the longest prefix of the data's bits
  that is in it (`LongestMatch`, which has exactly one answer). `Trie` is the store: it
  keeps each entry under the key bytes last inserted, never two entries for one bit
  string, never more than `cap`, never a key longer than `w`; an insert it has no room
  for is refused, and a lookup with a longer key finds nothing. `insert_map`, `remove_map`
  and `get_longest` say that it refines the function.

  `installed_congr`: two bit orders give one answer for `d` after a history if each key of
  the history covers `d` in the one exactly when it does in the other.
-/

import Mathlib.Data.List.Induction
import Mathlib.Data.List.Nodup
import Mathlib.Data.List.TakeDrop
import Mathlib.Logic.Function.Basic

namespace FabricRs.Lpm

open Function (update)

variable {D V : Type}

structure Key (D : Type) where
  len : Nat
  data : D
  deriving DecidableEq, Repr

/-- The first `n` bits of `d`. -/
def bits (bit : D → Nat → Bool) (n : Nat) (d : D) : List Bool := (List.range n).map (bit d)

variable (bit : D → Nat → Bool)

def Key.bits (k : Key D) : List Bool := Lpm.bits bit k.len k.data

/-- `d` starts with the key's bits. -/
def Key.Covers (k : Key D) (d : D) : Prop := k.bits bit = Lpm.bits bit k.len d

instance (k : Key D) (d : D) : Decidable (k.Covers bit d) := inferInstanceAs (Decidable (_ = _))

@[simp] theorem bits_length (n : Nat) (d : D) : (bits bit n d).length = n := by simp [bits]

theorem bits_take {j n : Nat} (h : j ≤ n) (d : D) : (bits bit n d).take j = bits bit j d := by
  rw [bits, bits, ← List.map_take, List.take_range, Nat.min_eq_left h]

theorem bits_eq_iff {n : Nat} {a b : D} : bits bit n a = bits bit n b ↔ ∀ i < n, bit a i = bit b i := by
  simp [bits]

theorem key_bits_eq_iff {k : Key D} {n : Nat} {d : D} : k.bits bit = bits bit n d ↔ k.len = n ∧ k.Covers bit d := by
  refine ⟨fun h => ?_, fun ⟨hl, h⟩ => ?_⟩
  · have hl : k.len = n := by simpa [Key.bits] using congrArg List.length h
    subst hl
    exact ⟨rfl, h⟩
  · subst hl
    exact h

/-! ## Histories -/

inductive Op (D V : Type) where
  | add (k : Key D) (v : V)
  | remove (k : Key D)

def Op.key : Op D V → Key D
  | .add k _ => k
  | .remove k => k

/-- One command's effect on the installed prefixes. -/
def apply (m : List Bool → Option V) : Op D V → List Bool → Option V
  | .add k v => update m (k.bits bit) (some v)
  | .remove k => update m (k.bits bit) none

/-- The value last added under each bit string and not removed since. -/
def installed (ops : List (Op D V)) : List Bool → Option V := ops.foldl (apply bit) fun _ => none

theorem installed_snoc (ops : List (Op D V)) (op : Op D V) :
    installed bit (ops ++ [op]) = apply bit (installed bit ops) op := by
  simp [installed]

/-- `r` is the value at the longest prefix of `b` that `m` has. -/
def LongestMatch (m : List Bool → Option V) (b : List Bool) : Option V → Prop
  | some v => ∃ n ≤ b.length, m (b.take n) = some v ∧ ∀ j, n < j → j ≤ b.length → m (b.take j) = none
  | none => ∀ n ≤ b.length, m (b.take n) = none

theorem LongestMatch.unique {m : List Bool → Option V} {b : List Bool} {r r' : Option V} (h : LongestMatch m b r)
    (h' : LongestMatch m b r') : r = r' := by
  cases r with
  | none =>
    cases r' with
    | none => rfl
    | some v =>
      obtain ⟨n, hn, hv, -⟩ := h'
      rw [h n hn] at hv
      cases hv
  | some v =>
    obtain ⟨n, hn, hv, hlong⟩ := h
    cases r' with
    | none => rw [h' n hn] at hv; cases hv
    | some v' =>
      obtain ⟨n', hn', hv', hlong'⟩ := h'
      rcases Nat.lt_trichotomy n n' with hlt | rfl | hlt
      · rw [hlong n' hlt hn'] at hv'; cases hv'
      · exact hv.symm.trans hv'
      · rw [hlong' n hlt hn] at hv; cases hv

/-- A lookup reads the function at the data's own prefixes only. -/
theorem LongestMatch.congr {m m' : List Bool → Option V} {b b' : List Bool} {r : Option V}
    (hl : b.length = b'.length) (hm : ∀ n ≤ b.length, m (b.take n) = m' (b'.take n)) :
    LongestMatch m b r ↔ LongestMatch m' b' r := by
  cases r with
  | none =>
    constructor
    · intro h n hn
      rw [← hm n (by omega)]
      exact h n (by omega)
    · intro h n hn
      rw [hm n hn]
      exact h n (by omega)
  | some v =>
    refine ⟨fun ⟨n, hn, hv, h⟩ => ?_, fun ⟨n, hn, hv, h⟩ => ?_⟩
    · refine ⟨n, by omega, by rw [← hm n hn]; exact hv, fun j hj hjl => ?_⟩
      rw [← hm j (by omega)]
      exact h j hj (by omega)
    · refine ⟨n, by omega, by rw [hm n (by omega)]; exact hv, fun j hj hjl => ?_⟩
      rw [hm j hjl]
      exact h j hj (by omega)

/-- One command, seen from `d`'s prefix of length `n`. -/
theorem apply_bits (m : List Bool → Option V) (op : Op D V) (n : Nat) (d : D) :
    apply bit m op (bits bit n d) =
      if op.key.len = n ∧ op.key.Covers bit d then (match op with | .add _ v => some v | .remove _ => none)
      else m (bits bit n d) := by
  by_cases hc : op.key.len = n ∧ op.key.Covers bit d
  · rw [if_pos hc, ← (key_bits_eq_iff bit).mpr hc]
    cases op with
    | add k v => exact Function.update_self _ _ _
    | remove k => exact Function.update_self _ _ _
  · have hne : bits bit n d ≠ op.key.bits bit := fun e => hc ((key_bits_eq_iff bit).mp e.symm)
    rw [if_neg hc]
    cases op with
    | add k v => exact Function.update_of_ne hne _ _
    | remove k => exact Function.update_of_ne hne _ _

theorem installed_congr {bit bit' : D → Nat → Bool} {d : D} {ops : List (Op D V)}
    (h : ∀ op ∈ ops, op.key.Covers bit d ↔ op.key.Covers bit' d) (n : Nat) :
    installed bit ops (bits bit n d) = installed bit' ops (bits bit' n d) := by
  induction ops using List.reverseRecOn with
  | nil => rfl
  | append_singleton ops op ih =>
    have ih := ih fun o ho => h o (List.mem_append_left _ ho)
    rw [installed_snoc, installed_snoc, apply_bits, apply_bits, ih]
    simp only [h op (by simp)]

/-- With one prefix installed a lookup finds it if it covers the data. -/
theorem longestMatch_single {k : Key D} {v : V} {w : Nat} (hk : k.len ≤ w) (d : D) :
    LongestMatch (installed bit [.add k v]) (bits bit w d) (if k.Covers bit d then some v else none) := by
  have hlen : (bits bit w d).length = w := bits_length bit _ _
  have happly : ∀ n ≤ w, installed bit [.add k v] ((bits bit w d).take n) =
      if k.len = n ∧ k.Covers bit d then some v else none := by
    intro n hn
    rw [bits_take bit hn]
    exact apply_bits bit (fun _ => none) (.add k v) n d
  by_cases hc : k.Covers bit d
  · rw [if_pos hc]
    refine ⟨k.len, by omega, by rw [happly _ hk, if_pos ⟨rfl, hc⟩], fun j hj hjl => ?_⟩
    rw [happly j (by omega), if_neg fun h => by omega]
  · rw [if_neg hc]
    intro n hn
    rw [happly n (by omega), if_neg fun h => hc h.2]

/-! ## The store -/

structure Trie (w cap : Nat) (V : Type) where
  entries : List (Key D × V)
  /-- One entry for a bit string. -/
  uniq : (entries.map fun e => e.1.bits bit).Nodup
  fits : entries.length ≤ cap
  short : ∀ e ∈ entries, e.1.len ≤ w

namespace Trie

variable {bit} {w cap : Nat}

def empty : Trie bit w cap V := ⟨[], by simp, by simp, by simp⟩

/-- The entries under other bit strings than `k`'s. -/
def others (t : Trie bit w cap V) (k : Key D) : List (Key D × V) := t.entries.filter fun e => e.1.bits bit ≠ k.bits bit

theorem mem_others {t : Trie bit w cap V} {k : Key D} {e : Key D × V} :
    e ∈ t.others k ↔ e ∈ t.entries ∧ e.1.bits bit ≠ k.bits bit := by
  simp [others]

theorem others_uniq (t : Trie bit w cap V) (k : Key D) : ((t.others k).map fun e => e.1.bits bit).Nodup :=
  List.Nodup.sublist (List.Sublist.map _ List.filter_sublist) t.uniq

/-- `none`: the key is too long, or a new entry does not fit. -/
def insert (t : Trie bit w cap V) (k : Key D) (v : V) : Option (Trie bit w cap V) :=
  if h : k.len ≤ w ∧ (t.others k).length < cap then
    some {
      entries := (k, v) :: t.others k
      uniq := by
        rw [List.map_cons, List.nodup_cons]
        refine ⟨fun hm => ?_, t.others_uniq k⟩
        obtain ⟨e, he, hk⟩ := List.mem_map.mp hm
        exact (mem_others.mp he).2 hk
      fits := by simp only [List.length_cons]; omega
      short := by
        intro e he
        rcases List.mem_cons.mp he with rfl | he
        · exact h.1
        · exact t.short e (mem_others.mp he).1 }
  else none

/-- An insert is taken if its key is short enough and its bits are stored already, or there
    is room for one more. -/
theorem insert_isSome_iff {t : Trie bit w cap V} {k : Key D} {v : V} : (t.insert k v).isSome ↔
    k.len ≤ w ∧ ((∃ e ∈ t.entries, e.1.bits bit = k.bits bit) ∨ t.entries.length < cap) := by
  have hroom : (t.others k).length < cap ↔ (∃ e ∈ t.entries, e.1.bits bit = k.bits bit) ∨ t.entries.length < cap := by
    by_cases he : ∃ e ∈ t.entries, e.1.bits bit = k.bits bit
    · obtain ⟨e, he, hb⟩ := he
      have hlt : (t.others k).length < t.entries.length :=
        List.length_filter_lt_length_iff_exists.mpr ⟨e, he, by simpa using hb⟩
      have hfits := t.fits
      exact ⟨fun _ => Or.inl ⟨e, he, hb⟩, fun _ => by omega⟩
    · have hall : t.others k = t.entries :=
        List.filter_eq_self.mpr fun e hm => by simpa using fun hb => he ⟨e, hm, hb⟩
      rw [hall]
      exact ⟨Or.inr, fun h => h.resolve_left he⟩
  rw [← hroom]
  unfold insert
  by_cases h : k.len ≤ w ∧ (t.others k).length < cap
  · rw [dif_pos h]
    exact ⟨fun _ => h, fun _ => rfl⟩
  · rw [dif_neg h]
    refine ⟨fun h' => ?_, fun h' => absurd h' h⟩
    cases h'

def remove (t : Trie bit w cap V) (k : Key D) : Trie bit w cap V where
  entries := t.others k
  uniq := t.others_uniq k
  fits := Nat.le_trans (List.length_filter_le _ _) t.fits
  short e he := t.short e (mem_others.mp he).1

/-- The longest key of a list of entries. -/
def longest : List (Key D × V) → Option (Key D × V)
  | [] => none
  | e :: l => match longest l with
    | none => some e
    | some f => if f.1.len ≤ e.1.len then some e else some f

/-- The stored keys of at most `k`'s length that `k` starts with. -/
def candidates (t : Trie bit w cap V) (k : Key D) : List (Key D × V) :=
  t.entries.filter fun e => e.1.len ≤ k.len ∧ e.1.Covers bit k.data

/-- The value of the longest of them. -/
def get (t : Trie bit w cap V) (k : Key D) : Option V :=
  if k.len ≤ w then (longest (t.candidates k)).map (·.2) else none

/-- The entry under a bit string. -/
def entry (t : Trie bit w cap V) (p : List Bool) : Option (Key D × V) := t.entries.find? fun e => e.1.bits bit = p

theorem entry_eq_some {t : Trie bit w cap V} {p : List Bool} {e : Key D × V} :
    t.entry p = some e ↔ e ∈ t.entries ∧ e.1.bits bit = p := by
  refine ⟨fun h => ⟨List.mem_of_find?_eq_some h, by simpa using List.find?_some h⟩, fun ⟨he, hp⟩ => ?_⟩
  cases hf : t.entry p with
  | none => exact absurd hp (by simpa using List.find?_eq_none.mp hf e he)
  | some f =>
    have hb : f.1.bits bit = p := by simpa using List.find?_some hf
    -- one entry for a bit string
    rw [List.inj_on_of_nodup_map t.uniq (List.mem_of_find?_eq_some hf) he (hb.trans hp.symm)]

theorem entry_eq_none {t : Trie bit w cap V} {p : List Bool} : t.entry p = none ↔ ∀ e ∈ t.entries, e.1.bits bit ≠ p := by
  simp [entry]

theorem others_find {t : Trie bit w cap V} {k : Key D} {p : List Bool} (h : p ≠ k.bits bit) :
    (t.others k).find? (fun e => e.1.bits bit = p) = t.entry p := by
  rw [others, List.find?_filter]
  unfold entry
  congr 1
  funext e
  by_cases hp : e.1.bits bit = p
  · simp [hp, h]
  · simp [hp]

theorem insert_entry {t t' : Trie bit w cap V} {k : Key D} {v : V} (h : t.insert k v = some t') :
    t'.entry = update t.entry (k.bits bit) (some (k, v)) := by
  unfold insert at h
  split at h
  · cases h
    funext p
    rw [Function.update_apply]
    by_cases hp : p = k.bits bit
    · rw [if_pos hp, entry_eq_some]
      exact ⟨List.mem_cons_self, hp.symm⟩
    · rw [if_neg hp, entry, List.find?_cons_of_neg (by simpa using Ne.symm hp), others_find hp]
  · cases h

/-- An insert, taken or refused, adds at most one entry. -/
theorem insert_length (t : Trie bit w cap V) (k : Key D) (v : V) :
    ((t.insert k v).getD t).entries.length ≤ t.entries.length + 1 := by
  unfold insert
  split
  · exact Nat.succ_le_succ (List.length_filter_le _ _)
  · exact Nat.le_succ _

theorem remove_length (t : Trie bit w cap V) (k : Key D) : (t.remove k).entries.length ≤ t.entries.length :=
  List.length_filter_le _ _

theorem remove_entry (t : Trie bit w cap V) (k : Key D) : (t.remove k).entry = update t.entry (k.bits bit) none := by
  funext p
  rw [Function.update_apply]
  by_cases hp : p = k.bits bit
  · rw [if_pos hp, entry_eq_none]
    intro e he
    rw [hp]
    exact (mem_others.mp he).2
  · rw [if_neg hp, entry, remove, others_find hp]

/-- The partial function the store stands for. -/
def map (t : Trie bit w cap V) (p : List Bool) : Option V := (t.entries.find? fun e => e.1.bits bit = p).map (·.2)

theorem map_eq (t : Trie bit w cap V) (p : List Bool) : t.map p = (t.entry p).map (·.2) := rfl

theorem map_eq_some {t : Trie bit w cap V} {p : List Bool} {v : V} :
    t.map p = some v ↔ ∃ k, (k, v) ∈ t.entries ∧ k.bits bit = p := by
  rw [map_eq, Option.map_eq_some_iff]
  refine ⟨fun ⟨e, he, hv⟩ => ?_, fun ⟨k, hk⟩ => ⟨_, entry_eq_some.mpr hk, rfl⟩⟩
  subst hv
  exact ⟨e.1, entry_eq_some.mp he⟩

theorem map_eq_none {t : Trie bit w cap V} {p : List Bool} : t.map p = none ↔ ∀ e ∈ t.entries, e.1.bits bit ≠ p := by
  rw [map_eq, Option.map_eq_none_iff, entry_eq_none]

theorem empty_map : (empty : Trie bit w cap V).map = fun _ => none := rfl

theorem insert_map {t t' : Trie bit w cap V} {k : Key D} {v : V} (h : t.insert k v = some t') :
    t'.map = update t.map (k.bits bit) (some v) := by
  funext p
  rw [map_eq, insert_entry h, Function.update_apply, Function.update_apply]
  split
  · rfl
  · rw [map_eq]

theorem remove_map (t : Trie bit w cap V) (k : Key D) : (t.remove k).map = update t.map (k.bits bit) none := by
  funext p
  rw [map_eq, remove_entry, Function.update_apply, Function.update_apply]
  split
  · rfl
  · rw [map_eq]

theorem longest_spec (l : List (Key D × V)) :
    (longest l = none ∧ l = []) ∨ ∃ e, longest l = some e ∧ e ∈ l ∧ ∀ f ∈ l, f.1.len ≤ e.1.len := by
  induction l with
  | nil => exact Or.inl ⟨rfl, rfl⟩
  | cons e l ih =>
    right
    rcases ih with ⟨h, rfl⟩ | ⟨f, h, hf, hlong⟩
    · exact ⟨e, by simp [longest], by simp, by simp⟩
    · by_cases hle : f.1.len ≤ e.1.len
      · refine ⟨e, by simp [longest, h, hle], by simp, fun g hg => ?_⟩
        rcases List.mem_cons.mp hg with rfl | hg
        · exact Nat.le_refl _
        · exact Nat.le_trans (hlong g hg) hle
      · refine ⟨f, by simp [longest, h, hle], List.mem_cons_of_mem _ hf, fun g hg => ?_⟩
        rcases List.mem_cons.mp hg with rfl | hg
        · omega
        · exact hlong g hg

theorem get_of_le {t : Trie bit w cap V} {k : Key D} (h : k.len ≤ w) : t.get k = (longest (t.candidates k)).map (·.2) :=
  if_pos h

/-- A key that is too long finds nothing, whatever covers it. -/
theorem get_of_gt {t : Trie bit w cap V} {k : Key D} (h : w < k.len) : t.get k = none :=
  if_neg (by omega)

@[simp] theorem empty_get (k : Key D) : (empty : Trie bit w cap V).get k = none := by
  unfold get
  split <;> rfl

theorem mem_candidates {t : Trie bit w cap V} {k : Key D} {e : Key D × V} :
    e ∈ t.candidates k ↔ e ∈ t.entries ∧ e.1.len ≤ k.len ∧ e.1.bits bit = (k.bits bit).take e.1.len := by
  have htake : ∀ n ≤ k.len, (k.bits bit).take n = bits bit n k.data := fun n hn => bits_take bit hn k.data
  rw [candidates, List.mem_filter, decide_eq_true_eq]
  refine ⟨fun ⟨h1, h2, h3⟩ => ?_, fun ⟨h1, h2, h3⟩ => ?_⟩
  · exact ⟨h1, h2, by rw [htake _ h2]; exact h3⟩
  · rw [htake _ h2] at h3
    exact ⟨h1, h2, h3⟩

/-- A key stored under a prefix of `k`'s bits is a candidate. -/
theorem candidates_of_take {t : Trie bit w cap V} {k : Key D} {n : Nat} (hn : n ≤ k.len) {e : Key D × V}
    (he : e ∈ t.entries) (hb : e.1.bits bit = (k.bits bit).take n) : e.1.len = n ∧ e ∈ t.candidates k := by
  have hl : e.1.len = n := by
    have := congrArg List.length hb
    simp only [Key.bits, bits_length, List.length_take] at this
    omega
  exact ⟨hl, mem_candidates.mpr ⟨he, by omega, by rw [hl]; exact hb⟩⟩

/-- A lookup answers at the longest prefix installed. -/
theorem get_longest (t : Trie bit w cap V) {k : Key D} (hk : k.len ≤ w) : LongestMatch t.map (k.bits bit) (t.get k) := by
  have hlen : (k.bits bit).length = k.len := bits_length bit _ _
  rw [get_of_le hk]
  rcases longest_spec (t.candidates k) with ⟨h, hnil⟩ | ⟨e, h, he, hlong⟩
  · rw [h]
    intro n hn
    rw [map_eq_none]
    intro e he hb
    have hmem := (candidates_of_take (by omega) he hb).2
    rw [hnil] at hmem
    cases hmem
  · rw [h]
    obtain ⟨h1, h2, h3⟩ := mem_candidates.mp he
    refine ⟨e.1.len, by omega, map_eq_some.mpr ⟨e.1, h1, h3⟩, fun j hj hjl => ?_⟩
    rw [map_eq_none]
    intro f hf hb
    obtain ⟨hl, hmem⟩ := candidates_of_take (by omega) hf hb
    have := hlong f hmem
    omega

/-- Where no other stored key covers `k`, a lookup is exact. -/
theorem get_exact {t : Trie bit w cap V} {k : Key D} (hk : k.len ≤ w)
    (h : ∀ e ∈ t.entries, e.1.len ≤ k.len → e.1.Covers bit k.data → e.1 = k) : t.get k = t.map (k.bits bit) := by
  have hlen : (k.bits bit).length = k.len := bits_length bit _ _
  refine (t.get_longest hk).unique ?_
  cases hm : t.map (k.bits bit) with
  | none =>
    intro n hn
    rw [map_eq_none]
    intro e he hb
    have htake : (k.bits bit).take n = bits bit n k.data := bits_take bit (by omega) k.data
    obtain ⟨hl, hc⟩ := (key_bits_eq_iff bit).mp (hb.trans htake)
    have hek : e.1 = k := h e he (by omega) hc
    exact map_eq_none.mp hm e he (by rw [hek])
  | some v =>
    refine ⟨k.len, by omega, ?_, fun j hj hjl => absurd hj (by omega)⟩
    rw [← hlen, List.take_length]
    exact hm

end Trie

end FabricRs.Lpm

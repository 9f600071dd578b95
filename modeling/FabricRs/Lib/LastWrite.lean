/-
  FabricRs.Lib.LastWrite — what the last write to a key left.

  An event may write some keys and delete others: `eff e k` is what it does to `k`,
  `none` for nothing, `some none` for a delete. `value` is what `k` holds after a list of
  events; `value_eq_some` says in so many words which event that is from.
-/

import Mathlib.Data.List.Induction

namespace FabricRs.LastWrite

variable {E K V : Type} (eff : E → K → Option (Option V))

def value (evs : List E) (k : K) : Option V := evs.foldl (fun v e => (eff e k).getD v) none

/-- The last event of `evs` that touches `k` writes `v` there. -/
def Last (evs : List E) (k : K) (v : V) : Prop :=
  ∃ pre e post, evs = pre ++ e :: post ∧ eff e k = some (some v) ∧ ∀ c ∈ post, eff c k = none

@[simp] theorem value_nil (k : K) : value eff [] k = none := rfl

theorem value_snoc (evs : List E) (e : E) (k : K) : value eff (evs ++ [e]) k = (eff e k).getD (value eff evs k) := by
  simp [value]

/-- An event that writes `o` if `c` holds, and nothing else. -/
theorem value_snoc_ite {evs : List E} {e : E} {k : K} {c : Prop} [Decidable c] {o : Option V}
    (h : eff e k = if c then some o else none) : value eff (evs ++ [e]) k = if c then o else value eff evs k := by
  rw [value_snoc, h]
  by_cases hc : c
  · rw [if_pos hc, if_pos hc]
    rfl
  · rw [if_neg hc, if_neg hc]
    rfl

/-- Where a list that ends in `a` can be cut. -/
theorem snoc_eq_append_cons {α : Type} {l pre post : List α} {a b : α} :
    l ++ [a] = pre ++ b :: post ↔ (l = pre ∧ a = b ∧ post = []) ∨ ∃ post', post = post' ++ [a] ∧ l = pre ++ b :: post' := by
  refine ⟨fun h => ?_, fun h => ?_⟩
  · rcases List.eq_nil_or_concat post with rfl | ⟨post, d, rfl⟩
    · obtain ⟨rfl, he⟩ := List.append_inj' h rfl
      cases he
      exact Or.inl ⟨rfl, rfl, rfl⟩
    · rw [List.concat_eq_append, ← List.cons_append, ← List.append_assoc] at h
      obtain ⟨rfl, he⟩ := List.append_inj' h rfl
      cases he
      exact Or.inr ⟨post, List.concat_eq_append, rfl⟩
  · rcases h with ⟨rfl, rfl, rfl⟩ | ⟨post', rfl, rfl⟩
    · rfl
    · simp

theorem last_snoc {evs : List E} {e : E} {k : K} {v : V} :
    Last eff (evs ++ [e]) k v ↔ eff e k = some (some v) ∨ eff e k = none ∧ Last eff evs k v := by
  refine ⟨fun ⟨pre, d, post, he, hd, hp⟩ => ?_, fun h => ?_⟩
  · rcases snoc_eq_append_cons.mp he with ⟨rfl, rfl, rfl⟩ | ⟨post', rfl, rfl⟩
    · exact Or.inl hd
    · exact Or.inr ⟨hp e (by simp), pre, d, post', rfl, hd, fun c hc => hp c (List.mem_append_left _ hc)⟩
  · rcases h with h | ⟨h, pre, d, post, rfl, hd, hp⟩
    · exact ⟨evs, e, [], rfl, h, by simp⟩
    · refine ⟨pre, d, post ++ [e], by simp, hd, fun c hc => ?_⟩
      rcases List.mem_append.mp hc with hc | hc
      · exact hp c hc
      · rw [List.mem_singleton.mp hc]; exact h

theorem value_eq_some {evs : List E} {k : K} {v : V} : value eff evs k = some v ↔ Last eff evs k v := by
  induction evs using List.reverseRecOn with
  | nil => simp [Last]
  | append_singleton evs e ih =>
    rw [value_snoc, last_snoc, ← ih]
    cases h : eff e k with
    | none => simp
    | some o => simp

/-- A value with a property stands last somewhere. -/
theorem exists_last {α : Type} {p : α → Prop} {l : List α} (h : ∃ a ∈ l, p a) :
    ∃ pre a post, l = pre ++ a :: post ∧ p a ∧ ∀ b ∈ post, ¬ p b := by
  induction l with
  | nil =>
    obtain ⟨a, ha, -⟩ := h
    cases ha
  | cons b l ih =>
    by_cases hl : ∃ a ∈ l, p a
    · obtain ⟨pre, a, post, rfl, ha, hp⟩ := ih hl
      exact ⟨b :: pre, a, post, rfl, ha, hp⟩
    · obtain ⟨a, ha, hp⟩ := h
      rcases List.mem_cons.mp ha with rfl | ha
      · exact ⟨[], a, l, rfl, hp, fun c hc hpc => hl ⟨c, hc, hpc⟩⟩
      · exact absurd ⟨a, ha, hp⟩ hl

end FabricRs.LastWrite

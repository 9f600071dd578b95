/-
  FabricRs.Lib.Walks — walks in a finite graph, and runs that follow one.

  A walk is a function of time with an edge from each node to the next. With as many edges
  as there are nodes it has been to one of them twice (`walk_looped`), and where a cycle
  can be reached there is always a way on (`Looped.next`). A system may keep more than the
  node it is at: as long as its steps are the edges, it runs without end exactly from where
  a cycle can be reached (`run_iff_looped`).
-/

import Mathlib.Data.Fintype.Pigeonhole
import Mathlib.Logic.Relation
import FabricRs.Lib.Lts

namespace FabricRs.Walks

open Relation (ReflTransGen TransGen)
open Lts (Run)

variable {V : Type} {R : V → V → Prop} {p : Nat → V} {l : Nat}

/-- From `x` a cycle can be reached. -/
def Looped (R : V → V → Prop) (x : V) : Prop := ∃ z, ReflTransGen R x z ∧ TransGen R z z

theorem Looped.next {x : V} (h : Looped R x) : ∃ y, R x y ∧ Looped R y := by
  obtain ⟨z, hx, hz⟩ := h
  rcases hx.cases_head with rfl | ⟨y, hy, hyz⟩
  · obtain ⟨y, hy, hyx⟩ := TransGen.head'_iff.mp hz
    exact ⟨y, hy, x, hyx, hz⟩
  · exact ⟨y, hy, z, hyz, hz⟩

theorem walk_reaches (hp : ∀ i < l, R (p i) (p (i + 1))) {i j : Nat} (hij : i ≤ j) (hj : j ≤ l) :
    ReflTransGen R (p i) (p j) := by
  induction j, hij using Nat.le_induction with
  | base => exact .refl
  | succ j _ ih => exact (ih (by omega)).tail (hp j (by omega))

/-- A walk of as many edges as there are nodes has met a cycle. -/
theorem walk_looped [Fintype V] (hp : ∀ i < l, R (p i) (p (i + 1))) (hl : Fintype.card V ≤ l) : Looped R (p 0) := by
  have hcycle : ∀ i j, i < j → j ≤ l → p i = p j → Looped R (p 0) := by
    intro i j hij hj he
    refine ⟨p i, walk_reaches hp (Nat.zero_le i) (by omega), ?_⟩
    have hback : ReflTransGen R (p (i + 1)) (p i) := by
      rw [he]
      exact walk_reaches hp hij hj
    exact .head' (hp i (by omega)) hback
  -- two of the times up to `l` are at one node
  obtain ⟨i, j, hne, he⟩ := Fintype.exists_ne_map_eq_of_card_lt (fun i : Fin (l + 1) => p i) (by simp; omega)
  rcases Nat.lt_or_gt_of_ne fun e => hne (Fin.ext e) with hlt | hgt
  · exact hcycle i j hlt (by omega) he
  · exact hcycle j i hgt (by omega) he.symm

section Runs

variable {A S : Type} {step : A → S → S → Prop} {P : S → Prop} (f : S → V)
  (hstep : ∀ a s t, P s → step a s t → P t ∧ R (f s) (f t))
  (hedge : ∀ s v, P s → R (f s) v → ∃ a t, step a s t ∧ f t = v)

include hstep hedge

theorem run_of_looped {s : S} (hs : P s) (h : Looped R (f s)) : Nonempty (Run step s) := by
  refine Run.exists_of_progress (P := fun s => P s ∧ Looped R (f s)) ⟨hs, h⟩ fun s ⟨hs, h⟩ => ?_
  obtain ⟨v, hv, hl⟩ := h.next
  obtain ⟨a, t, ht, rfl⟩ := hedge s v hs hv
  exact ⟨a, t, ht, (hstep a s t hs ht).1, hl⟩

theorem run_iff_looped [Fintype V] {s : S} (hs : P s) : Nonempty (Run step s) ↔ Looped R (f s) := by
  refine ⟨fun ⟨r⟩ => ?_, run_of_looped f hstep hedge hs⟩
  have hP := r.inv hs fun a s t hs h => (hstep a s t hs h).1
  have hl := walk_looped (p := fun i => f (r.state i)) (fun i _ => (hstep _ _ _ (hP i) (r.next i)).2)
    (Nat.le_refl (Fintype.card V))
  rw [← r.start]
  exact hl

end Runs

end FabricRs.Walks

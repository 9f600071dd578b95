/-
  FabricRs.Lib.Schedule — there is a behavior fair to countably many actions.

  The schedule counts how often each action was taken. An action's weight is its number
  and that count together; of the enabled ones one of the least weight is taken. So an
  action that is enabled again and again is passed over by lighter ones only, and these get
  heavier each time.

  - `exists_fair`: from every initial state, whatever the actions.
-/

import Mathlib.Algebra.BigOperators.Group.Finset.Basic
import Mathlib.Algebra.Order.BigOperators.Group.Finset
import Mathlib.Data.Countable.Defs
import Mathlib.Logic.Function.Basic
import FabricRs.Lib.Liveness

namespace FabricRs.Lts.Behavior

open Finset (range)
open Function (update)

variable {S A : Type} (number : A → Nat) (E : A → S → S → Prop)

/-- A state with how often the actions, by their numbers, were taken. -/
structure Counted (S : Type) where
  state : S
  count : Nat → Nat

def Counted.weight (x : Counted S) (i : Nat) : Nat := i + x.count i

/-- A lightest enabled action is taken, or none is enabled. -/
def Picks (x y : Counted S) : Prop :=
  (∃ a, E a x.state y.state ∧ y.count = update x.count (number a) (x.count (number a) + 1) ∧
    ∀ a', Enabled (E a') x.state → x.weight (number a) ≤ x.weight (number a')) ∨
  (y = x ∧ ∀ a, ¬ Enabled (E a) x.state)

theorem exists_picks (x : Counted S) : ∃ y, Picks number E x y := by
  classical
  by_cases h : ∃ w a, Enabled (E a) x.state ∧ x.weight (number a) = w
  · obtain ⟨a, ⟨t, ht⟩, hw⟩ := Nat.find_spec h
    refine ⟨⟨t, update x.count (number a) (x.count (number a) + 1)⟩, Or.inl ⟨a, ht, rfl, fun a' ha' => ?_⟩⟩
    rw [hw]
    exact Nat.find_min' h ⟨a', ha', rfl⟩
  · exact ⟨x, Or.inr ⟨rfl, fun a ha => h ⟨_, a, ha, rfl⟩⟩⟩

variable {number E}

theorem Picks.count_le {x y : Counted S} (h : Picks number E x y) (i : Nat) : x.count i ≤ y.count i := by
  rcases h with ⟨a, -, hc, -⟩ | ⟨rfl, -⟩
  · rw [hc]
    by_cases e : i = number a
    · subst e
      rw [Function.update_self]
      exact Nat.le_succ _
    · rw [Function.update_of_ne e]
  · exact Nat.le_refl _

/-- How far the actions up to the weight `w` are from being heavier. -/
def slack (w : Nat) (x : Counted S) : Nat := ∑ i ∈ range (w + 1), (w + 1 - x.weight i)

theorem Picks.slack_le {x y : Counted S} (h : Picks number E x y) (w : Nat) : slack w y ≤ slack w x :=
  Finset.sum_le_sum fun i _ => by
    have := h.count_le i
    unfold Counted.weight
    omega

/-- Where an action of weight `w` is enabled, the slack below goes down. -/
theorem Picks.slack_lt {x y : Counted S} (h : Picks number E x y) {a : A} (ha : Enabled (E a) x.state) :
    slack (x.weight (number a)) y < slack (x.weight (number a)) x := by
  have hcount := h.count_le
  rcases h with ⟨a', -, hc, hmin⟩ | ⟨-, hnone⟩
  · have hle := hmin a ha
    have hi : number a' ≤ x.weight (number a) := (Nat.le_add_right _ _).trans hle
    refine Finset.sum_lt_sum (fun i _ => ?_) ⟨number a', Finset.mem_range.mpr (by omega), ?_⟩
    · have := hcount i
      unfold Counted.weight
      omega
    · have hy : y.count (number a') = x.count (number a') + 1 := by rw [hc, Function.update_self]
      unfold Counted.weight at hle ⊢
      omega
  · exact absurd ha (hnone a)

variable {init : S → Prop} {step : S → S → Prop}

theorem exists_fair [Countable A] (E : A → S → S → Prop) (hE : ∀ a s t, E a s t → step s t) {s : S} (hs : init s) :
    ∃ b : Behavior init step, b.state 0 = s ∧ ∀ a, b.Fair (E a) := by
  obtain ⟨number, hinj⟩ := exists_injective_nat A
  choose next hnext using exists_picks number E
  let run : Nat → Counted S := fun n => n.rec ⟨s, fun _ => 0⟩ fun _ x => next x
  have hpick : ∀ n, Picks number E (run n) (run (n + 1)) := fun n => hnext (run n)
  refine ⟨⟨fun n => (run n).state, hs, fun n => ?_⟩, rfl, fun a hoft n => ?_⟩
  · rcases hpick n with ⟨a, ht, -⟩ | ⟨he, -⟩
    · exact Or.inl (hE a _ _ ht)
    · exact Or.inr (congrArg Counted.state he)
  · -- not taken from `n` on, its weight stays, and the slack below would go down for ever
    by_contra hno
    push Not at hno
    have hcount : ∀ m, n ≤ m → (run m).count (number a) = (run n).count (number a) := by
      intro m hm
      induction m, hm using Nat.le_induction with
      | base => rfl
      | succ m hm ih =>
        rw [← ih]
        rcases hpick m with ⟨a', ht, hc, -⟩ | ⟨he, -⟩
        · rw [hc, Function.update_of_ne]
          intro e
          exact hno m hm (hinj e ▸ ht)
        · rw [he]
    have hdown : ∀ k m, n ≤ m → slack ((run n).weight (number a)) (run m) ≠ k := by
      intro k
      induction k using Nat.strong_induction_on with
      | _ k ih =>
        intro m hm hk
        obtain ⟨j, hj, hen⟩ := hoft m
        have hle : ∀ i, m ≤ i → slack ((run n).weight (number a)) (run i) ≤ k := by
          intro i hi
          induction i, hi using Nat.le_induction with
          | base => exact hk.le
          | succ i _ ih => exact ((hpick i).slack_le _).trans ih
        have hlt := (hpick j).slack_lt hen
        have hw : (run j).weight (number a) = (run n).weight (number a) := by
          unfold Counted.weight
          rw [hcount j (hm.trans hj)]
        rw [hw] at hlt
        exact ih _ (Nat.lt_of_lt_of_le hlt (hle j hj)) (j + 1) (by omega) rfl
    exact hdown _ n (Nat.le_refl n) rfl

end FabricRs.Lts.Behavior

/-
  FabricRs.Lib.Lts — runs of a transition system, and bounded FIFO channels.

  `Reach` is the states a system can be in; `Reach.inv` is the invariant rule and
  `Reach.map` the simulation rule (every step of one system is a step of the other, or
  leaves its state alone). `Run` is a run without end: there is one wherever no step leads
  to a dead end (`Run.exists_of_progress`), and the steps that lower a measure come to an
  end in it (`Run.settles`). `Chan cap α` is a bounded FIFO queue: it carries the proof
  that it never holds more than `cap` values, a full one refuses a send. A state that
  keeps a value for each task changes one of them at a time (`update_cases`).
-/

import Mathlib.Data.List.Basic
import Mathlib.Logic.Function.Basic
import Mathlib.Order.WellFounded

namespace FabricRs.Lts

variable {S T α : Type} {cap : Nat}

inductive Reach (init : S → Prop) (step : S → S → Prop) : S → Prop
  | init {s : S} : init s → Reach init step s
  | step {s t : S} : Reach init step s → step s t → Reach init step t

namespace Reach

variable {init : S → Prop} {step : S → S → Prop}

/-- The invariant rule; the step case may use that the state is reachable. -/
theorem inv {P : S → Prop} (h0 : ∀ s, init s → P s) (hs : ∀ s t, Reach init step s → P s → step s t → P t)
    {s : S} (h : Reach init step s) : P s := by
  induction h with
  | init h => exact h0 _ h
  | step hr h ih => exact hs _ _ hr ih h

/-- The simulation rule: a projection that turns every step into a step or a stutter
    keeps reachability. -/
theorem map {init' : T → Prop} {step' : T → T → Prop} (f : S → T) (h0 : ∀ s, init s → init' (f s))
    (hs : ∀ s t, Reach init step s → step s t → step' (f s) (f t) ∨ f t = f s) {s : S}
    (h : Reach init step s) : Reach init' step' (f s) := by
  induction h with
  | init h => exact .init (h0 _ h)
  | step hr h ih =>
    rcases hs _ _ hr h with h' | h'
    · exact .step ih h'
    · rw [h']; exact ih

theorem trans {s t : S} (h : Reach init step s) (h' : Reach (· = s) step t) : Reach init step t := by
  induction h' with
  | init he => rw [he]; exact h
  | step _ hs ih => exact .step ih hs

theorem exists_start {s : S} (h : Reach init step s) : ∃ s₀, init s₀ ∧ Reach (· = s₀) step s := by
  induction h with
  | @init s h => exact ⟨s, h, .init rfl⟩
  | step _ hs ih =>
    obtain ⟨s₀, h0, hr⟩ := ih
    exact ⟨s₀, h0, .step hr hs⟩

end Reach

/-! ## Runs without end -/

/-- The states of a run, and who moves from each to the next. -/
structure Run {A : Type} (step : A → S → S → Prop) (s : S) where
  state : Nat → S
  act : Nat → A
  start : state 0 = s
  next : ∀ n, step (act n) (state n) (state (n + 1))

namespace Run

variable {A : Type} {step : A → S → S → Prop} {s : S}

/-- The invariant rule. -/
theorem inv {P : S → Prop} (h0 : P s) (hs : ∀ a s t, P s → step a s t → P t) (r : Run step s) (n : Nat) :
    P (r.state n) := by
  induction n with
  | zero => rw [r.start]; exact h0
  | succ n ih => exact hs _ _ _ ih (r.next n)

theorem exists_of_progress {P : S → Prop} (h0 : P s) (hs : ∀ s, P s → ∃ a t, step a s t ∧ P t) :
    Nonempty (Run step s) := by
  choose act next hstep hnext using fun s : { s // P s } => hs s.1 s.2
  let state : Nat → { s // P s } := fun n => n.rec ⟨s, h0⟩ fun _ s => ⟨next s, hnext s⟩
  exact ⟨⟨fun n => (state n).1, fun n => act (state n), rfl, fun n => hstep (state n)⟩⟩

/-- Where every step lowers `μ` or is one that `Q` allows and does not raise it, only the
    latter are left from some time on. -/
theorem settles {P : S → Prop} {Q : A → S → S → Prop} (μ : S → Nat) (h0 : P s) (hP : ∀ a s t, P s → step a s t → P t)
    (hμ : ∀ a s t, P s → step a s t → μ t < μ s ∨ (μ t ≤ μ s ∧ Q a s t)) (r : Run step s) :
    ∃ n, ∀ m, n ≤ m → Q (r.act m) (r.state m) (r.state (m + 1)) := by
  have hr : ∀ m, _ := fun m => hμ _ _ _ (r.inv h0 hP m) (r.next m)
  have hanti : Antitone fun m => μ (r.state m) := antitone_nat_of_succ_le fun m => by
    rcases hr m with h | h
    · exact h.le
    · exact h.1
  -- `n` is a time at which the measure is least
  let n := Function.argmin fun m => μ (r.state m)
  refine ⟨n, fun m hm => ?_⟩
  rcases hr m with h | h
  · have hle : μ (r.state m) ≤ μ (r.state n) := hanti hm
    have hmin := Function.argmin_le (fun m => μ (r.state m)) (m + 1)
    exact absurd (hle.trans hmin) (not_le.mpr h)
  · exact h.2

end Run

/-- A task's value after a change of one task's. -/
theorem update_cases {I : Type} [DecidableEq I] {f : I → α} {i j : I} {v w : α} (h : Function.update f i v j = w) :
    (j = i ∧ v = w) ∨ (j ≠ i ∧ f j = w) := by
  by_cases e : j = i
  · subst e
    exact Or.inl ⟨rfl, by rw [← h, Function.update_self]⟩
  · exact Or.inr ⟨e, by rw [← h, Function.update_of_ne e]⟩

/-! ## Bounded channels -/

structure Chan (cap : Nat) (α : Type) where
  buf : List α
  le : buf.length ≤ cap

namespace Chan

def empty : Chan cap α := ⟨[], Nat.zero_le _⟩

/-- The channel with `a` queued last; `none` while it is full. -/
def send (c : Chan cap α) (a : α) : Option (Chan cap α) :=
  if h : c.buf.length < cap then some ⟨c.buf ++ [a], by rw [List.length_append]; exact h⟩ else none

/-- The oldest value and the channel without it; `none` while it is empty. -/
def recv (c : Chan cap α) : Option (α × Chan cap α) :=
  match h : c.buf with
  | [] => none
  | a :: l => some (a, ⟨l, by have hle := c.le; rw [h] at hle; exact Nat.le_of_succ_le hle⟩)

@[ext] theorem ext {c d : Chan cap α} (h : c.buf = d.buf) : c = d := by
  cases c; cases d; simp_all

@[simp] theorem empty_buf : (empty : Chan cap α).buf = [] := rfl

@[simp, grind =] theorem send_eq_some {c d : Chan cap α} {a : α} : c.send a = some d ↔ d.buf = c.buf ++ [a] := by
  unfold send
  refine ⟨fun h => ?_, fun h => ?_⟩
  · split at h
    · cases h; rfl
    · cases h
  · have hlt : c.buf.length < cap := by have := d.le; simp [h] at this; omega
    rw [dif_pos hlt]
    exact congrArg some (ext h.symm)

@[simp, grind =] theorem recv_eq_some {c d : Chan cap α} {a : α} : c.recv = some (a, d) ↔ c.buf = a :: d.buf := by
  unfold recv
  refine ⟨fun h => ?_, fun h => ?_⟩
  · split at h
    · cases h
    · cases h; assumption
  · split
    · rename_i he; rw [h] at he; cases he
    · rename_i he
      rw [h] at he
      cases he
      rfl

theorem exists_send (c : Chan cap α) (a : α) (h : c.buf.length < cap) : ∃ d, c.send a = some d := by
  exact ⟨⟨c.buf ++ [a], by simp; omega⟩, by simp⟩

theorem exists_recv (c : Chan cap α) (h : c.buf ≠ []) : ∃ a d, c.recv = some (a, d) := by
  obtain ⟨a, l, hb⟩ := List.exists_cons_of_ne_nil h
  exact ⟨a, ⟨l, by have := c.le; simp [hb] at this; omega⟩, by simp [hb]⟩

/-- A channel of positive capacity has room or holds something. -/
theorem room_or_ne_nil (c : Chan cap α) (h : 0 < cap) : c.buf.length < cap ∨ c.buf ≠ [] := by
  cases hb : c.buf with
  | nil => left; simpa using h
  | cons a l => right; simp

end Chan

end FabricRs.Lts

/-
  FabricRs.Lib.Liveness — what happens sooner or later in the behaviors of a transition
  system.

  A `Behavior` makes a step or none from each time to the next, so a run that ends is one
  that stutters from there on, and a projection of a behavior is a behavior
  (`Behavior.map`). An action is a part of the step relation, such as the steps of one
  task. A behavior is fair to it (`Fair`) if the action is taken again and again unless it
  is from some time on disabled. A task that waits for a slot of a channel, or for a value
  in it, gets its turn in a first-come order: it is not overtaken without end.

  - `leads_of_fair`: a state that only a fair action leaves is left.
  - `leads_of_often`: where the action is enabled only now and then.
  - `LeadsTo.count`: a counter that never stands still below a bound reaches it.
  - `LeadsTo.queue`: what is queued has its turn.
-/

import FabricRs.Lib.Lts

namespace FabricRs.Lts

variable {S T : Type}

structure Behavior (init : S → Prop) (step : S → S → Prop) where
  state : Nat → S
  start : init (state 0)
  next : ∀ n, step (state n) (state (n + 1)) ∨ state (n + 1) = state n

/-- An action has a step from `s`. -/
def Enabled (E : S → S → Prop) (s : S) : Prop := ∃ t, E s t

/-- `P` holds of a state and the steps keep it. -/
def Stable (init : S → Prop) (step : S → S → Prop) (P : S → Prop) : Prop :=
  ∀ s t, Reach init step s → P s → step s t → P t

/-- From a state of `P` a step leads to one of `P` or of `Q`. -/
def Unless (init : S → Prop) (step : S → S → Prop) (P Q : S → Prop) : Prop :=
  ∀ s t, Reach init step s → P s → step s t → P t ∨ Q t

namespace Behavior

variable {init : S → Prop} {step : S → S → Prop} {init' : T → Prop} {step' : T → T → Prop}

/-- `P` holds again and again. -/
def Often (b : Behavior init step) (P : S → Prop) : Prop := ∀ n, ∃ m, n ≤ m ∧ P (b.state m)

/-- An action that is enabled again and again is taken again and again. -/
def Fair (b : Behavior init step) (E : S → S → Prop) : Prop :=
  b.Often (Enabled E) → ∀ n, ∃ m, n ≤ m ∧ E (b.state m) (b.state (m + 1))

/-- Whenever `P` holds, `Q` does then or later. -/
def LeadsTo (b : Behavior init step) (P Q : S → Prop) : Prop :=
  ∀ n, P (b.state n) → ∃ m, n ≤ m ∧ Q (b.state m)

theorem reach (b : Behavior init step) (n : Nat) : Reach init step (b.state n) := by
  induction n with
  | zero => exact .init b.start
  | succ n ih =>
    rcases b.next n with h | h
    · exact .step ih h
    · rw [h]; exact ih

/-- A projection that turns every step into a step or a stutter. -/
def map (b : Behavior init step) (f : S → T) (h0 : ∀ s, init s → init' (f s))
    (hs : ∀ s t, Reach init step s → step s t → step' (f s) (f t) ∨ f t = f s) : Behavior init' step' where
  state n := f (b.state n)
  start := h0 _ b.start
  next n := by
    rcases b.next n with h | h
    · exact hs _ _ (b.reach n) h
    · exact Or.inr (congrArg f h)

/-- A behavior that stays in a state may go on from it instead, and stay further on. -/
theorem exists_extend {b : Behavior init step} {n : Nat} {s t : S} (hb : ∀ j, n ≤ j → b.state j = s)
    (h : Reach (· = s) step t) :
    ∃ b' : Behavior init step, ∃ m, n ≤ m ∧ (∀ j, j ≤ n → b'.state j = b.state j) ∧ ∀ j, m ≤ j → b'.state j = t := by
  induction h with
  | init he => exact ⟨b, n, Nat.le_refl n, fun _ _ => rfl, by rw [he]; exact hb⟩
  | @step t u _ hst ih =>
    obtain ⟨b', m, hm, hsame, hb'⟩ := ih
    refine ⟨⟨fun j => if j ≤ m then b'.state j else u, ?_, fun j => ?_⟩, m + 1, hm.trans (Nat.le_succ m),
      fun j hj => ?_, fun j hj => if_neg (by omega)⟩
    · rw [if_pos (Nat.zero_le m)]
      exact b'.start
    · rcases Nat.lt_trichotomy j m with h | rfl | h
      · rw [if_pos h.le, if_pos (Nat.succ_le_of_lt h)]
        exact b'.next j
      · rw [if_pos (Nat.le_refl j), if_neg (by omega), hb' j (Nat.le_refl j)]
        exact Or.inl hst
      · rw [if_neg (by omega), if_neg (by omega)]
        exact Or.inr rfl
    · rw [← hsame j hj]
      exact if_pos (hj.trans hm)

/-- The behavior that goes along a list of states and stays in the last. -/
theorem exists_of_reach {s : S} (h : Reach init step s) : ∃ b : Behavior init step, ∃ n, ∀ m, n ≤ m → b.state m = s := by
  obtain ⟨s₀, h0, hr⟩ := h.exists_start
  obtain ⟨b, n, -, -, hb⟩ := exists_extend (b := ⟨fun _ => s₀, h0, fun _ => Or.inr rfl⟩) (n := 0) (fun _ _ => rfl) hr
  exact ⟨b, n, hb⟩

/-- A behavior that ends where an action is disabled is fair to it. -/
theorem Fair.of_end {b : Behavior init step} {E : S → S → Prop} {s : S} {n : Nat} (hb : ∀ m, n ≤ m → b.state m = s)
    (hE : ¬ Enabled E s) : b.Fair E := by
  intro h
  obtain ⟨m, hm, he⟩ := h n
  rw [hb m hm] at he
  exact absurd he hE

/-! ## What holds from some time on -/

theorem stable {b : Behavior init step} {P : S → Prop} (h : Stable init step P) {n m : Nat} (hnm : n ≤ m)
    (hp : P (b.state n)) : P (b.state m) := by
  induction m, hnm using Nat.le_induction with
  | base => exact hp
  | succ m _ ih =>
    rcases b.next m with hs | hs
    · exact h _ _ (b.reach m) ih hs
    · rw [hs]; exact ih

/-- `P` holds on, or `Q` comes. -/
theorem lasts {b : Behavior init step} {P Q : S → Prop} (h : Unless init step P Q) {n m : Nat} (hnm : n ≤ m)
    (hp : P (b.state n)) : P (b.state m) ∨ ∃ k, n ≤ k ∧ k ≤ m ∧ Q (b.state k) := by
  induction m, hnm using Nat.le_induction with
  | base => exact Or.inl hp
  | succ m hm ih =>
    rcases ih with ih | ⟨k, hk, hkm, hq⟩
    · rcases b.next m with hs | hs
      · exact (h _ _ (b.reach m) ih hs).imp_right fun hq => ⟨m + 1, by omega, Nat.le_refl _, hq⟩
      · exact Or.inl (hs ▸ ih)
    · exact Or.inr ⟨k, hk, by omega, hq⟩

/-- A task's fairness is fairness to what it does in `P`, if only that leads out of `P`. -/
theorem Fair.restrict {b : Behavior init step} {E : S → S → Prop} {P : S → Prop} (h : b.Fair E)
    (hP : ∀ s t, Reach init step s → P s → step s t → ¬ E s t → P t) : b.Fair fun s t => P s ∧ E s t := by
  intro hen n
  by_contra hno
  push Not at hno
  have hE := h fun n => by
    obtain ⟨m, hm, t, -, ht⟩ := hen n
    exact ⟨m, hm, t, ht⟩
  obtain ⟨k, hk, t, hp, -⟩ := hen n
  -- no step of `E` in `P` any more, so `P` stays
  have hstay : ∀ m, k ≤ m → P (b.state m) := by
    intro m hm
    induction m, hm using Nat.le_induction with
    | base => exact hp
    | succ m hm ih =>
      rcases b.next m with hs | hs
      · exact hP _ _ (b.reach m) ih hs (hno m (by omega) ih)
      · rw [hs]; exact ih
  obtain ⟨m, hm, he⟩ := hE k
  exact hno m (by omega) (hstay m hm) he

/-- Fairness carries over to a projection that shows when the action is enabled and taken. -/
theorem Fair.map {b : Behavior init step} {f : S → T} {h0 : ∀ s, init s → init' (f s)}
    {hs : ∀ s t, Reach init step s → step s t → step' (f s) (f t) ∨ f t = f s} {E : S → S → Prop} {E' : T → T → Prop}
    (h : b.Fair E) (hen : ∀ s, Reach init step s → Enabled E' (f s) → Enabled E s) (ht : ∀ s t, E s t → E' (f s) (f t)) :
    (b.map f h0 hs).Fair E' := by
  intro hoft n
  obtain ⟨m, hm, he⟩ := h (fun n => by
    obtain ⟨m, hm, h'⟩ := hoft n
    exact ⟨m, hm, hen _ (b.reach m) h'⟩) n
  exact ⟨m, hm, ht _ _ he⟩

/-! ## Leads-to -/

section

variable {b : Behavior init step} {P Q R G : S → Prop} {E : S → S → Prop}

theorem LeadsTo.of_imp (h : ∀ s, Reach init step s → P s → Q s) : b.LeadsTo P Q :=
  fun n hp => ⟨n, Nat.le_refl n, h _ (b.reach n) hp⟩

theorem LeadsTo.trans (h : b.LeadsTo P Q) (h' : b.LeadsTo Q R) : b.LeadsTo P R := by
  intro n hp
  obtain ⟨m, hm, hq⟩ := h n hp
  obtain ⟨k, hk, hr⟩ := h' m hq
  exact ⟨k, hm.trans hk, hr⟩

theorem LeadsTo.or (h : b.LeadsTo P R) (h' : b.LeadsTo Q R) : b.LeadsTo (fun s => P s ∨ Q s) R :=
  fun n hp => hp.elim (h n) (h' n)

theorem LeadsTo.trans_or (h : b.LeadsTo P fun s => Q s ∨ R s) (h' : b.LeadsTo Q R) : b.LeadsTo P R :=
  h.trans (h'.or (.of_imp fun _ _ hr => hr))

/-- What comes whenever it does not hold comes again and again. -/
theorem LeadsTo.often (h : b.LeadsTo (fun s => ¬ Q s) Q) : b.Often Q := by
  intro n
  by_cases hq : Q (b.state n)
  · exact ⟨n, Nat.le_refl n, hq⟩
  · exact h n hq

/-- While `P` lasts, `G` comes. -/
theorem leads_of_unless (hu : Unless init step P Q) (hG : b.Often G) :
    b.LeadsTo P fun s => (P s ∧ G s) ∨ Q s := by
  intro n hp
  obtain ⟨m, hm, hg⟩ := hG n
  rcases lasts hu hm hp with hp' | ⟨k, hk, -, hq⟩
  · exact ⟨m, hm, Or.inl ⟨hp', hg⟩⟩
  · exact ⟨k, hk, Or.inr hq⟩

/-- `P` lasts until `Q`, an action of `P` leads to `Q` and is enabled whenever `G` holds,
    and `G` holds again and again. -/
theorem leads_of_often (hE : b.Fair E) (hG : b.Often G) (hu : Unless init step P Q)
    (hen : ∀ s, Reach init step s → P s → G s → Enabled E s) (hq : ∀ s t, Reach init step s → P s → E s t → Q t) :
    b.LeadsTo P Q := by
  intro n hp
  by_contra hno
  push Not at hno
  have hstay : ∀ m, n ≤ m → P (b.state m) := fun m hm =>
    (lasts hu hm hp).resolve_right fun ⟨k, hk, _, hq⟩ => hno k hk hq
  obtain ⟨m, hm, he⟩ := hE (fun k => by
    obtain ⟨m, hm, hg⟩ := hG (max n k)
    exact ⟨m, by omega, hen _ (b.reach m) (hstay m (by omega)) hg⟩) n
  exact hno (m + 1) (by omega) (hq _ _ (b.reach m) (hstay m hm) he)

/-- The action is enabled all the while. -/
theorem leads_of_fair (hE : b.Fair E) (hu : Unless init step P Q) (hen : ∀ s, Reach init step s → P s → Enabled E s)
    (hq : ∀ s t, Reach init step s → P s → E s t → Q t) : b.LeadsTo P Q :=
  leads_of_often (G := fun _ => True) hE (fun n => ⟨n, Nat.le_refl n, trivial⟩) hu (fun s hr hp _ => hen s hr hp) hq

/-- A rank that comes down until `Q`. -/
theorem LeadsTo.rank (μ : S → Nat) (h : ∀ k, b.LeadsTo (fun s => P s ∧ μ s = k) fun s => (P s ∧ μ s < k) ∨ Q s) :
    b.LeadsTo P Q := by
  suffices hk : ∀ k n, P (b.state n) → μ (b.state n) = k → ∃ m, n ≤ m ∧ Q (b.state m) from fun n hp => hk _ n hp rfl
  intro k
  induction k using Nat.strong_induction_on with
  | _ k ih =>
    intro n hp hμ
    obtain ⟨m, hm, ⟨hp', hlt⟩ | hq⟩ := h k n ⟨hp, hμ⟩
    · obtain ⟨l, hl, hq⟩ := ih _ hlt m hp' rfl
      exact ⟨l, hm.trans hl, hq⟩
    · exact ⟨m, hm, hq⟩

/-- While `P` lasts, a counter that never stands still at a value up to `i` passes `i`. -/
theorem LeadsTo.count (count : S → Nat) (i : Nat) (hP : Stable init step P)
    (h : ∀ k, k ≤ i → b.LeadsTo (fun s => P s ∧ count s = k) fun s => k < count s) :
    b.LeadsTo P fun s => i < count s := by
  refine LeadsTo.rank (fun s => i + 1 - count s) fun k n ⟨hp, hk⟩ => ?_
  by_cases hi : i < count (b.state n)
  · exact ⟨n, Nat.le_refl n, Or.inr hi⟩
  · obtain ⟨m, hm, hlt⟩ := h _ (by omega) n ⟨hp, rfl⟩
    refine ⟨m, hm, Or.inl ⟨stable hP hm hp, ?_⟩⟩
    omega

/-- A queue whose head goes away sooner or later, the rest behind it staying: each value in
    it comes to its head and goes. `P` is what may be used on the way. -/
theorem LeadsTo.queue {α : Type} {q : S → List α} {x : α}
    (h : ∀ y l, b.LeadsTo (fun s => P s ∧ y :: l <+: q s) fun s => (P s ∧ l <+: q s) ∧ (y = x → Q s)) :
    b.LeadsTo (fun s => P s ∧ x ∈ q s) Q := by
  have hfront : ∀ l, b.LeadsTo (fun s => P s ∧ l ++ [x] <+: q s) Q := by
    intro l
    induction l with
    | nil => exact (h x []).trans (.of_imp fun _ _ hq => hq.2 rfl)
    | cons y l ih => exact (h y (l ++ [x])).trans ((LeadsTo.of_imp fun _ _ hq => hq.1).trans ih)
  intro n ⟨hp, hx⟩
  obtain ⟨l, l', hl⟩ := List.append_of_mem hx
  exact hfront l n ⟨hp, l', by rw [hl, List.append_assoc]; rfl⟩

end

end Behavior

end FabricRs.Lts

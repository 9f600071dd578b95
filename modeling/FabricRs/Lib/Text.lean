/-
  FabricRs.Lib.Text — texts that can be read back.

  A text is put together of literals, numbers and lists, with no count and no escapes; what
  can be read back depends on what comes after. `Readable P print` says that a value's
  text, with a text of `P` behind it, is no other value's: it tells the value, and where it
  ends. A decimal number ends where the digits do (`NoDigit`), a text of fixed width
  anywhere (`Any`), and a list where no further item starts (`Readable.list`).
-/

import Mathlib.Data.List.TakeDrop
import Mathlib.Logic.Function.Basic

namespace FabricRs.Text

variable {α β : Type}

abbrev Rest := List Char → Prop

def Any : Rest := fun _ => True

/-- Goes on with no digit. -/
def NoDigit : Rest := fun r => ∀ c ∈ r.head?, c.isDigit = false

def Readable (P : Rest) (print : α → String) : Prop :=
  ∀ a b r r', P r → P r' → (print a).toList ++ r = (print b).toList ++ r' → a = b ∧ r = r'

namespace Readable

variable {P Q : Rest} {print : α → String}

/-- A value whose text is that of what it is made of. -/
theorem comp (h : Readable P print) {print' : β → String} (f : β → α) (hf : Function.Injective f)
    (hp : ∀ b, print' b = print (f b)) : Readable P print' := by
  intro a b r r' hr hr' he
  rw [hp, hp] at he
  obtain ⟨hab, hrr⟩ := h _ _ r r' hr hr' he
  exact ⟨hf hab, hrr⟩

/-- With a literal before it. -/
theorem literal (h : Readable P print) (s : String) : Readable P fun a => s ++ print a := by
  intro a b r r' hr hr' he
  simp only [String.toList_append, List.append_assoc] at he
  exact h a b r r' hr hr' (List.append_cancel_left he)

/-- With a literal behind it. -/
theorem behind (h : Readable P print) (s : String) (hs : ∀ r, Q r → P (s.toList ++ r)) :
    Readable Q fun a => print a ++ s := by
  intro a b r r' hr hr' he
  simp only [String.toList_append, List.append_assoc] at he
  obtain ⟨hab, he'⟩ := h a b _ _ (hs r hr) (hs r' hr') he
  exact ⟨hab, List.append_cancel_left he'⟩

/-- Whatever comes after it, if the literal's first character may follow. -/
theorem before (h : Readable P print) (s : String) {c : Char} (hs : s.toList.head? = some c) (hc : ∀ r, P (c :: r)) :
    Readable Any fun a => print a ++ s := by
  obtain ⟨l, hl⟩ := List.head?_eq_some_iff.mp hs
  exact h.behind s fun r _ => by rw [hl, List.cons_append]; exact hc _

/-- One behind the other. -/
theorem append {print' : β → String} (h : Readable Any print) (h' : Readable Q print') :
    Readable Q fun x : α × β => print x.1 ++ print' x.2 := by
  rintro ⟨a, a'⟩ ⟨b, b'⟩ r r' hr hr' he
  simp only [String.toList_append, List.append_assoc] at he
  obtain ⟨rfl, he'⟩ := h a b _ _ trivial trivial he
  obtain ⟨rfl, hrr⟩ := h' a' b' r r' hr hr' he'
  exact ⟨rfl, hrr⟩

end Readable

/-! ## Fixed widths -/

theorem readable_width {print : α → String} {n : Nat} (hn : ∀ a, (print a).toList.length = n)
    (hinj : Function.Injective print) : Readable Any print := by
  intro a b r r' _ _ he
  obtain ⟨h1, h2⟩ := List.append_inj he (by rw [hn, hn])
  exact ⟨hinj (String.toList_inj.mp h1), h2⟩

/-! ## Numbers -/

theorem noDigit_cons {c : Char} (hc : c.isDigit = false) (r : List Char) : NoDigit (c :: r) := by
  intro d hd
  cases hd
  exact hc

theorem takeWhile_noDigit {r : List Char} (h : NoDigit r) : r.takeWhile Char.isDigit = [] := by
  cases r with
  | nil => rfl
  | cons c r => exact List.takeWhile_cons_of_neg (by rw [h c rfl]; exact Bool.false_ne_true)

theorem readable_nat : Readable NoDigit fun n : Nat => toString n := by
  intro a b r r' hr hr' he
  have hdigits : ∀ (n : Nat) (r : List Char), NoDigit r →
      ((toString n).toList ++ r).takeWhile Char.isDigit = Nat.toDigits 10 n := by
    intro n r hr
    rw [Nat.toString_eq_repr, Nat.toList_repr, List.takeWhile_append_of_pos, takeWhile_noDigit hr, List.append_nil]
    exact fun c hc => Nat.isDigit_of_mem_toDigits (by decide) (by decide) hc
  have hab : Nat.toDigits 10 a = Nat.toDigits 10 b := by rw [← hdigits a r hr, he, hdigits b r' hr']
  have hab : a = b := by rw [← Nat.ofDigitChars_ten_toDigits (n := a), hab, Nat.ofDigitChars_ten_toDigits]
  subst hab
  exact ⟨rfl, List.append_cancel_left he⟩

/-- A number's text starts with a digit. -/
theorem nat_head (n : Nat) (r : List Char) : ∃ c l, (toString n).toList ++ r = c :: l ∧ c.isDigit = true := by
  cases h : Nat.toDigits 10 n with
  | nil => exact absurd h Nat.toDigits_ne_nil
  | cons c l =>
    refine ⟨c, l ++ r, ?_, Nat.isDigit_of_mem_toDigits (b := 10) (n := n) (by decide) (by decide) (by rw [h]; simp)⟩
    rw [Nat.toString_eq_repr, Nat.toList_repr, h, List.cons_append]

/-! ## Lists -/

/-- How a literal starts shows in every text that starts with it. -/
theorem begins {s : String} {cs : List Char} (h : cs <+: s.toList) (t : String) : cs <+: (s ++ t).toList := by
  rw [String.toList_append]
  exact h.trans (List.prefix_append _ _)

theorem toList_foldl (print : α → String) (s : String) (l : List α) :
    (l.foldl (fun s a => s ++ print a) s).toList = s.toList ++ l.flatMap fun a => (print a).toList := by
  induction l generalizing s with
  | nil => exact (List.append_nil _).symm
  | cons a l ih => rw [List.foldl_cons, ih, String.toList_append, List.append_assoc, List.flatMap_cons]

/-- The texts of a list's items, one behind the other, if each starts with `cs` and what
    follows does not. -/
theorem Readable.list {P Q : Rest} {print : α → String} (h : Readable Q print) (hPQ : ∀ r, P r → Q r) (cs : List Char)
    (hcs : ∀ a, cs <+: (print a).toList) (hQ : ∀ l, Q (cs ++ l)) (hP : ∀ r, P r → ¬ cs <+: r) :
    Readable P fun l : List α => l.foldl (fun s a => s ++ print a) "" := by
  have hitems : ∀ (l : List α) r, P r → Q ((l.flatMap fun a => (print a).toList) ++ r) := by
    intro l r hr
    cases l with
    | nil => exact hPQ r hr
    | cons a l =>
      obtain ⟨l', hl'⟩ := hcs a
      rw [List.flatMap_cons, ← hl', List.append_assoc, List.append_assoc]
      exact hQ _
  have hitem : ∀ a r r', P r' → (print a).toList ++ r ≠ r' := by
    rintro a r _ hr' rfl
    exact hP _ hr' ((hcs a).trans (List.prefix_append _ _))
  intro l l' r r' hr hr' he
  simp only [toList_foldl, String.toList_empty, List.nil_append] at he
  induction l generalizing l' with
  | nil =>
    cases l' with
    | nil => exact ⟨rfl, he⟩
    | cons b l' =>
      rw [List.flatMap_cons, List.append_assoc] at he
      exact absurd he.symm (hitem b _ r hr)
  | cons a l ih =>
    cases l' with
    | nil =>
      rw [List.flatMap_cons, List.append_assoc] at he
      exact absurd he (hitem a _ r' hr')
    | cons b l' =>
      simp only [List.flatMap_cons, List.append_assoc] at he
      obtain ⟨rfl, he'⟩ := h a b _ _ (hitems l r hr) (hitems l' r' hr') he
      obtain ⟨rfl, hrr⟩ := ih l' he'
      exact ⟨rfl, hrr⟩

end FabricRs.Text

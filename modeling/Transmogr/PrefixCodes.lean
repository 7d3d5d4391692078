import Mathlib.Data.List.Basic

/-! Codes whose words can be split off the front of a longer text. -/
namespace Transmogr.PrefixCodes

variable {α β γ : Type}

/-- The word at the front of a text says what it stands for and where it ends. -/
def PrefixFree (code : α → List γ) : Prop :=
  ∀ ⦃a b : α⦄ ⦃s t : List γ⦄, code a ++ s = code b ++ t → a = b ∧ s = t

theorem PrefixFree.injective {code : α → List γ} (free : PrefixFree code) :
    Function.Injective code := by
  intro a b same
  exact (free (congrArg (· ++ []) same)).1

theorem PrefixFree.comp {code : α → List γ} (free : PrefixFree code) {f : β → α}
    (injective : Function.Injective f) : PrefixFree fun b => code (f b) := by
  intro a b s t same
  obtain ⟨image, rest⟩ := free same
  exact ⟨injective image, rest⟩

/-- One word after another. -/
theorem PrefixFree.pair {first : α → List γ} {second : β → List γ} (left : PrefixFree first)
    (right : PrefixFree second) : PrefixFree fun p : α × β => first p.1 ++ second p.2 := by
  rintro ⟨a, b⟩ ⟨a', b'⟩ s t same
  rw [List.append_assoc, List.append_assoc] at same
  obtain ⟨rfl, onward⟩ := left same
  obtain ⟨rfl, rest⟩ := right onward
  exact ⟨rfl, rest⟩

/-- A word between fixed texts. -/
theorem PrefixFree.framed {code : α → List γ} (free : PrefixFree code) (front back : List γ) :
    PrefixFree fun a => front ++ code a ++ back := by
  intro a b s t same
  simp only [List.append_assoc] at same
  obtain ⟨rfl, onward⟩ := free (List.append_cancel_left same)
  exact ⟨rfl, List.append_cancel_left onward⟩

theorem prefixFree_singleton : PrefixFree fun c : γ => [c] := by
  intro a b s t same
  exact List.cons.inj same

/-- A text splits at its first separator. -/
theorem append_separator_inj {sep : γ} {xs ys s t : List γ} (absent : sep ∉ xs) (absent' : sep ∉ ys)
    (same : xs ++ sep :: s = ys ++ sep :: t) : xs = ys ∧ s = t := by
  induction xs generalizing ys with
  | nil =>
    cases ys with
    | nil => exact ⟨rfl, (List.cons.inj same).2⟩
    | cons y ys => exact absurd (List.cons.inj same).1 (List.ne_of_not_mem_cons absent')
  | cons x xs ih =>
    cases ys with
    | nil => exact absurd (List.cons.inj same).1.symm (List.ne_of_not_mem_cons absent)
    | cons y ys =>
      obtain ⟨rfl, onward⟩ := List.cons.inj same
      obtain ⟨rfl, rest⟩ := ih (List.not_mem_of_not_mem_cons absent)
        (List.not_mem_of_not_mem_cons absent') onward
      exact ⟨rfl, rest⟩

/-- Words that end with their first separator. -/
theorem prefixFree_terminated {code : α → List γ} (injective : Function.Injective code) {sep : γ}
    (absent : ∀ a, sep ∉ code a) : PrefixFree fun a => code a ++ [sep] := by
  intro a b s t same
  rw [List.append_assoc, List.append_assoc] at same
  obtain ⟨words, rest⟩ := append_separator_inj (absent a) (absent b) same
  exact ⟨injective words, rest⟩

/-- Equally many words stand for the same things. -/
theorem PrefixFree.flatMap {word : α → List γ} (free : PrefixFree word) {xs ys : List α}
    {s t : List γ} (sizes : xs.length = ys.length)
    (same : xs.flatMap word ++ s = ys.flatMap word ++ t) : xs = ys ∧ s = t := by
  induction xs generalizing ys with
  | nil =>
    cases List.eq_nil_of_length_eq_zero sizes.symm
    exact ⟨rfl, same⟩
  | cons x xs ih =>
    cases ys with
    | nil => cases sizes
    | cons y ys =>
      rw [List.flatMap_cons, List.flatMap_cons, List.append_assoc, List.append_assoc] at same
      obtain ⟨rfl, onward⟩ := free same
      obtain ⟨rfl, rest⟩ := ih (Nat.succ.inj sizes) onward
      exact ⟨rfl, rest⟩

/-- Words that are not empty can be read to the end of a text. -/
theorem PrefixFree.flatMap_injective {word : α → List γ} (free : PrefixFree word)
    (filled : ∀ a, word a ≠ []) : Function.Injective (List.flatMap word) := by
  intro xs
  induction xs with
  | nil =>
    intro ys same
    cases ys with
    | nil => rfl
    | cons y ys => exact absurd (List.append_eq_nil_iff.mp same.symm).1 (filled y)
  | cons x xs ih =>
    intro ys same
    cases ys with
    | nil => exact absurd (List.append_eq_nil_iff.mp same).1 (filled x)
    | cons y ys =>
      obtain ⟨rfl, rest⟩ := free same
      rw [ih rest]

/-- As many words as a count at the front says. -/
theorem PrefixFree.counted {count : Nat → List γ} {word : α → List γ} (counts : PrefixFree count)
    (words : PrefixFree word) :
    PrefixFree fun xs : List α => count xs.length ++ xs.flatMap word := by
  intro xs ys s t same
  rw [List.append_assoc, List.append_assoc] at same
  obtain ⟨sizes, onward⟩ := counts same
  exact words.flatMap sizes onward

end Transmogr.PrefixCodes

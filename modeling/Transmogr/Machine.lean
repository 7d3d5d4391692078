import Mathlib.Data.Option.Basic

/-! Machines that take one action after another, and what holds over their runs. -/
namespace Transmogr.Machine

variable {σ α : Type} {step : σ → α → Option σ}

/-- The state after a sequence of actions; `none` if one of them is not enabled. -/
def run (step : σ → α → Option σ) : σ → List α → Option σ
  | s, [] => some s
  | s, a :: actions => (step s a).bind fun t => run step t actions

/-- Every action is taken in a state that meets the condition for it. -/
def Meets (step : σ → α → Option σ) (cond : σ → α → Prop) : σ → List α → Prop
  | _, [] => True
  | s, a :: actions => cond s a ∧ match step s a with
    | none => True
    | some t => Meets step cond t actions

def Meets.decide (step : σ → α → Option σ) (cond : σ → α → Prop) [∀ s a, Decidable (cond s a)] :
    (s : σ) → (actions : List α) → Decidable (Meets step cond s actions)
  | _, [] => .isTrue trivial
  | s, a :: actions =>
    match h : step s a with
    | none => decidable_of_iff (cond s a) (by simp [Meets, h])
    | some t =>
      have := Meets.decide step cond t actions
      decidable_of_iff (cond s a ∧ Meets step cond t actions) (by simp [Meets, h])

instance (cond : σ → α → Prop) [∀ s a, Decidable (cond s a)] (s : σ) (actions : List α) :
    Decidable (Meets step cond s actions) :=
  Meets.decide step cond s actions

/-- What every step that meets the condition keeps holds in every state such a
run reaches. -/
theorem invariant {inv : σ → Prop} {cond : σ → α → Prop}
    (keeps : ∀ s a t, inv s → cond s a → step s a = some t → inv t) {s t : σ} {actions : List α}
    (start : inv s) (meets : Meets step cond s actions) (ran : run step s actions = some t) :
    inv t := by
  induction actions generalizing s with
  | nil => cases ran; exact start
  | cons a actions ih =>
    obtain ⟨next, taken, rest⟩ := Option.bind_eq_some_iff.mp ran
    rw [Meets, taken] at meets
    exact ih (keeps s a next start meets.1 taken) meets.2 rest

theorem Meets.and {cond cond' : σ → α → Prop} {s : σ} {actions : List α}
    (meets : Meets step cond s actions) (meets' : Meets step cond' s actions) :
    Meets step (fun s a => cond s a ∧ cond' s a) s actions := by
  induction actions generalizing s with
  | nil => trivial
  | cons a actions ih =>
    refine ⟨⟨meets.1, meets'.1⟩, ?_⟩
    have rest := meets.2
    have rest' := meets'.2
    cases taken : step s a with
    | none => trivial
    | some t =>
      rw [taken] at rest rest'
      exact ih rest rest'

theorem meets_of_forall {allowed : α → Prop} {actions : List α} (all : ∀ a ∈ actions, allowed a)
    (s : σ) : Meets step (fun _ a => allowed a) s actions := by
  induction actions generalizing s with
  | nil => trivial
  | cons a actions ih =>
    refine ⟨all a List.mem_cons_self, ?_⟩
    cases step s a with
    | none => trivial
    | some t => exact ih (fun b mem => all b (List.mem_cons_of_mem _ mem)) t

theorem meets_true (s : σ) (actions : List α) : Meets step (fun _ _ => True) s actions :=
  meets_of_forall (fun _ _ => trivial) s

/-- What every step keeps holds in every state reached. -/
theorem invariant_of_steps {inv : σ → Prop} (keeps : ∀ s a t, inv s → step s a = some t → inv t)
    {s t : σ} {actions : List α} (start : inv s) (ran : run step s actions = some t) : inv t :=
  invariant (fun s a t holds _ taken => keeps s a t holds taken) start (meets_true s actions) ran

/-- A run into a condition has a step that brings it about. -/
theorem exists_crossing {P : σ → Prop} {s t : σ} {actions : List α} (ran : run step s actions = some t)
    (before : ¬ P s) (after : P t) : ∃ front a back u v, actions = front ++ a :: back ∧
      run step s front = some u ∧ ¬ P u ∧ step u a = some v ∧ P v ∧ run step v back = some t := by
  induction actions generalizing s with
  | nil =>
    cases ran
    exact absurd after before
  | cons a actions ih =>
    obtain ⟨next, taken, rest⟩ := Option.bind_eq_some_iff.mp ran
    by_cases now : P next
    · exact ⟨[], a, actions, s, next, rfl, rfl, before, taken, now, rest⟩
    · obtain ⟨front, b, back, u, v, rfl, reached, others⟩ := ih rest now
      refine ⟨a :: front, b, back, u, v, rfl, ?_, others⟩
      rw [run, taken]
      exact reached

/-- Actions that use up a measure no other action adds to are taken at most as often as it says, by
steps that meet a condition, from states with an invariant these steps keep. -/
theorem countP_le_of_meets {inv : σ → Prop} {cond : σ → α → Prop} {measure : σ → Nat}
    {counted : α → Bool} (keeps : ∀ s a t, inv s → cond s a → step s a = some t → inv t)
    (bound : ∀ s a t, inv s → cond s a → step s a = some t →
      measure t + (counted a).toNat ≤ measure s)
    {s t : σ} {actions : List α} (start : inv s) (meets : Meets step cond s actions)
    (ran : run step s actions = some t) : measure t + actions.countP counted ≤ measure s := by
  induction actions generalizing s with
  | nil =>
    cases ran
    exact Nat.le_refl _
  | cons a actions ih =>
    obtain ⟨next, taken, rest⟩ := Option.bind_eq_some_iff.mp ran
    rw [Meets, taken] at meets
    have first := bound s a next start meets.1 taken
    have others := ih (keeps s a next start meets.1 taken) meets.2 rest
    rw [List.countP_cons]
    cases here : counted a with
    | false =>
      simp only [Bool.false_eq_true, if_false]
      omega
    | true =>
      rw [here, Bool.toNat_true] at first
      simp only [if_true]
      omega

/-- The same for every step. -/
theorem countP_le_of_steps {measure : σ → Nat} {counted : α → Bool}
    (bound : ∀ s a t, step s a = some t → measure t + (counted a).toNat ≤ measure s) {s t : σ}
    {actions : List α} (ran : run step s actions = some t) :
    measure t + actions.countP counted ≤ measure s :=
  @countP_le_of_meets _ _ _ (fun _ => True) _ _ _ (fun _ _ _ _ _ _ => trivial)
    (fun s a t _ _ taken => bound s a t taken) s t actions trivial (meets_true s actions) ran

end Transmogr.Machine

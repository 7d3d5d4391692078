import Mathlib.Logic.Basic

/-! Programs of several transactions. A transaction that fails leaves the state as it was;
a program that fails leaves what its earlier transactions did. -/
namespace Transmogr.Stateful

variable {ε σ α β : Type}

/-- One transaction on the state. -/
def transact (f : σ → Except ε (α × σ)) : EStateM ε σ α := fun s =>
  match f s with
  | .ok (a, t) => .ok a t
  | .error e => .error e s

/-- A computation that does not touch the state. -/
def attempt (x : Except ε α) : EStateM ε σ α := fun s =>
  match x with
  | .ok a => .ok a s
  | .error e => .error e s

def finalState (prog : EStateM ε σ α) (s : σ) : σ :=
  match prog s with
  | .ok _ t => t
  | .error _ t => t

/-- Wherever it starts, and also when it fails, the program stays within the relation. -/
def Within (R : σ → σ → Prop) (prog : EStateM ε σ α) : Prop := ∀ s, R s (finalState prog s)

namespace Within

variable {R : σ → σ → Prop} {prog : EStateM ε σ α}

theorem transact {f : σ → Except ε (α × σ)} (refl : ∀ s, R s s)
    (each : ∀ s a t, f s = .ok (a, t) → R s t) : Within R (transact f) := by
  intro s
  unfold finalState Stateful.transact
  cases ran : f s with
  | error e => exact refl s
  | ok result => exact each s result.1 result.2 ran

theorem pure (refl : ∀ s, R s s) (a : α) : Within R (Pure.pure a : EStateM ε σ α) := refl

theorem bind {next : α → EStateM ε σ β} (trans : ∀ r s t, R r s → R s t → R r t)
    (first : Within R prog) (rest : ∀ a, Within R (next a)) : Within R (prog >>= next) := by
  intro s
  have reached := first s
  unfold finalState at reached ⊢
  change R s (match EStateM.bind prog next s with | .ok _ t => t | .error _ t => t)
  unfold EStateM.bind
  cases ran : prog s with
  | error e t => rw [ran] at reached; exact reached
  | ok a t => rw [ran] at reached; exact trans s t _ reached (rest a t)

/-- What the value is may matter to what follows. -/
theorem attempt_bind {x : Except ε α} {next : α → EStateM ε σ β} (refl : ∀ s, R s s)
    (rest : ∀ a, x = .ok a → Within R (next a)) : Within R (attempt x >>= next) := by
  cases x with
  | error e => exact refl
  | ok a => exact rest a rfl

end Within

end Transmogr.Stateful

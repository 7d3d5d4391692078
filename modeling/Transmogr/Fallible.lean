import Mathlib.Data.List.Forall2

/-! Computations that may fail, taken apart. -/
namespace Transmogr.Fallible

variable {ε α β : Type}

theorem bind_eq_ok {x : Except ε α} {f : α → Except ε β} {r : β} :
    (x >>= f) = .ok r ↔ ∃ a, x = .ok a ∧ f a = .ok r := by
  cases x with
  | error e => simp [bind, Except.bind]
  | ok a => simp [bind, Except.bind]

theorem map_eq_ok {x : Except ε α} {f : α → β} {r : β} :
    x.map f = .ok r ↔ ∃ a, x = .ok a ∧ f a = r := by
  cases x with
  | error e => simp [Except.map]
  | ok a => simp [Except.map]

theorem exists_ok {x : Except ε α} (succeeds : x.toOption.isSome) : ∃ a, x = .ok a := by
  cases x with
  | error e => cases succeeds
  | ok a => exact ⟨a, rfl⟩

/-- A list of computations succeeds when each of them does. -/
theorem mapM_eq_ok {f : α → Except ε β} {xs : List α} {ys : List β} :
    xs.mapM f = .ok ys ↔ List.Forall₂ (fun x y => f x = .ok y) xs ys := by
  induction xs generalizing ys with
  | nil =>
    simp only [List.mapM_nil, List.forall₂_nil_left_iff]
    exact ⟨fun h => by cases h; rfl, fun h => by rw [h]; rfl⟩
  | cons x xs ih =>
    simp only [List.mapM_cons, bind_eq_ok, List.forall₂_cons_left_iff, ih]
    constructor
    · rintro ⟨y, head, rest, tail, eq⟩
      cases eq
      exact ⟨y, rest, head, tail, rfl⟩
    · rintro ⟨y, rest, head, tail, rfl⟩
      exact ⟨y, head, rest, tail, rfl⟩

theorem exists_mem_of_forall₂ {R : α → β → Prop} {xs : List α} {ys : List β} {x : α}
    (each : List.Forall₂ R xs ys) (mem : x ∈ xs) : ∃ y ∈ ys, R x y := by
  induction each with
  | nil => cases mem
  | @cons x' y xs ys head _ ih =>
    cases List.mem_cons.mp mem with
    | inl eq => exact ⟨y, List.mem_cons_self, eq ▸ head⟩
    | inr mem => exact (ih mem).imp fun y found => ⟨List.mem_cons_of_mem _ found.1, found.2⟩

theorem mem_of_mapM {f : α → Except ε β} {xs : List α} {ys : List β} {y : β}
    (ok : xs.mapM f = .ok ys) (mem : y ∈ ys) : ∃ x ∈ xs, f x = .ok y :=
  exists_mem_of_forall₂ (mapM_eq_ok.mp ok).flip mem

theorem exists_mem_of_mapM {f : α → Except ε β} {xs : List α} {ys : List β} {x : α}
    (ok : xs.mapM f = .ok ys) (mem : x ∈ xs) : ∃ y ∈ ys, f x = .ok y :=
  exists_mem_of_forall₂ (mapM_eq_ok.mp ok) mem

/-- A relation between inputs carries over to the outputs. -/
theorem pairwise_of_mapM {f : α → Except ε β} {xs : List α} {ys : List β} {P : α → α → Prop}
    {Q : β → β → Prop} (ok : xs.mapM f = .ok ys) (inputs : xs.Pairwise P)
    (carry : ∀ x ∈ xs, ∀ x' ∈ xs, ∀ y y', f x = .ok y → f x' = .ok y' → P x x' → Q y y') :
    ys.Pairwise Q := by
  have each := mapM_eq_ok.mp ok
  clear ok
  induction each with
  | nil => exact .nil
  | @cons x y xs ys head tail ih =>
    obtain ⟨first, rest⟩ := List.pairwise_cons.mp inputs
    refine List.pairwise_cons.mpr ⟨fun y' mem => ?_, ih rest fun a memA b memB =>
      carry a (List.mem_cons_of_mem _ memA) b (List.mem_cons_of_mem _ memB)⟩
    obtain ⟨x', inside, made⟩ := exists_mem_of_forall₂ tail.flip mem
    exact carry x List.mem_cons_self x' (List.mem_cons_of_mem _ inside) y y' head made (first x' inside)

theorem mem_of_mapM_flatten {f : α → Except ε (List β)} {xs : List α} {ys : List β} {y : β}
    (ok : (xs.mapM f).map List.flatten = .ok ys) (mem : y ∈ ys) :
    ∃ x ∈ xs, ∃ zs, f x = .ok zs ∧ y ∈ zs := by
  obtain ⟨lists, mapped, rfl⟩ := map_eq_ok.mp ok
  obtain ⟨zs, inside, mem⟩ := List.mem_flatten.mp mem
  obtain ⟨x, source, made⟩ := mem_of_mapM mapped inside
  exact ⟨x, source, zs, made, mem⟩

theorem subset_of_mapM_flatten {f : α → Except ε (List β)} {xs : List α} {ys : List β} {x : α}
    (ok : (xs.mapM f).map List.flatten = .ok ys) (mem : x ∈ xs) : ∃ zs, f x = .ok zs ∧ zs ⊆ ys := by
  obtain ⟨lists, mapped, rfl⟩ := map_eq_ok.mp ok
  obtain ⟨zs, inside, made⟩ := exists_mem_of_mapM mapped mem
  exact ⟨zs, made, fun _ member => List.mem_flatten.mpr ⟨zs, inside, member⟩⟩

theorem mapM_forall₂ {f : α → Except ε β} {R : α → β → Prop} {xs : List α}
    (each : ∀ x ∈ xs, ∃ y, f x = .ok y ∧ R x y) : ∃ ys, xs.mapM f = .ok ys ∧ List.Forall₂ R xs ys := by
  induction xs with
  | nil => exact ⟨[], rfl, .nil⟩
  | cons x xs ih =>
    obtain ⟨⟨y, head, related⟩, tail⟩ := List.forall_mem_cons.mp each
    obtain ⟨ys, rest, all⟩ := ih tail
    refine ⟨y :: ys, ?_, .cons related all⟩
    rw [List.mapM_cons, head, rest]
    rfl

theorem mapM_of_forall {f : α → Except ε β} {xs : List α} (each : ∀ x ∈ xs, ∃ y, f x = .ok y) :
    ∃ ys, xs.mapM f = .ok ys ∧ ∀ x ∈ xs, ∃ y ∈ ys, f x = .ok y := by
  induction xs with
  | nil => exact ⟨[], rfl, fun _ mem => (nomatch mem)⟩
  | cons x xs ih =>
    obtain ⟨⟨y, head⟩, tail⟩ := List.forall_mem_cons.mp each
    obtain ⟨ys, rest, found⟩ := ih tail
    refine ⟨y :: ys, ?_, List.forall_mem_cons.mpr ⟨⟨y, List.mem_cons_self, head⟩, ?_⟩⟩
    · rw [List.mapM_cons, head, rest]
      rfl
    · intro x' mem
      obtain ⟨y', inside, same⟩ := found x' mem
      exact ⟨y', List.mem_cons_of_mem y inside, same⟩

/-- A list on which the computation never fails. -/
theorem mapM_eq_map {f : α → Except ε β} {g : α → β} {xs : List α} (each : ∀ x ∈ xs, f x = .ok (g x)) :
    xs.mapM f = .ok (xs.map g) :=
  mapM_eq_ok.mpr (List.forall₂_map_right_iff.mpr (List.forall₂_same.mpr each))

/-- What each computation keeps of its input, the list keeps. -/
theorem map_of_mapM {γ : Type} {f : α → Except ε β} {p : α → γ} {q : β → γ} {xs : List α}
    {ys : List β} (keeps : ∀ x y, f x = .ok y → q y = p x) (ok : xs.mapM f = .ok ys) :
    ys.map q = xs.map p := by
  have each := mapM_eq_ok.mp ok
  clear ok
  induction each with
  | nil => rfl
  | cons head _ ih => rw [List.map_cons, List.map_cons, ih, keeps _ _ head]

/-- Two loops, one after the other, are one loop over both steps. -/
theorem mapM_bind_mapM_eq_ok {γ : Type} {f : α → Except ε β} {g : β → Except ε γ} {xs : List α}
    {zs : List γ} : (xs.mapM f >>= fun ys => ys.mapM g) = .ok zs ↔
      List.Forall₂ (fun x z => ∃ y, f x = .ok y ∧ g y = .ok z) xs zs := by
  simp only [bind_eq_ok, mapM_eq_ok]
  constructor
  · rintro ⟨ys, first, second⟩
    induction first generalizing zs with
    | nil => cases second; exact .nil
    | cons head _ ih =>
      cases second with
      | cons next rest => exact .cons ⟨_, head, next⟩ (ih rest)
  · intro both
    induction both with
    | nil => exact ⟨[], .nil, .nil⟩
    | cons head _ ih =>
      obtain ⟨y, first, second⟩ := head
      obtain ⟨ys, firsts, seconds⟩ := ih
      exact ⟨y :: ys, .cons first firsts, .cons second seconds⟩

theorem exists_forall₂ {R : α → β → Prop} {xs : List α} :
    (∃ ys, List.Forall₂ R xs ys) ↔ ∀ x ∈ xs, ∃ y, R x y := by
  constructor
  · rintro ⟨ys, all⟩
    induction all with
    | nil => simp
    | cons head _ ih => exact List.forall_mem_cons.mpr ⟨⟨_, head⟩, ih⟩
  · intro each
    induction xs with
    | nil => exact ⟨[], .nil⟩
    | cons x xs ih =>
      obtain ⟨⟨y, head⟩, tail⟩ := List.forall_mem_cons.mp each
      obtain ⟨ys, rest⟩ := ih tail
      exact ⟨y :: ys, .cons head rest⟩

theorem exists_error_iff {x : Except ε α} : (∃ e, x = .error e) ↔ ¬∃ a, x = .ok a := by
  cases x <;> simp

/-- Two loops fail when one of the elements does not pass both. -/
theorem mapM_bind_mapM_fails_iff {γ : Type} {f : α → Except ε β} {g : β → Except ε γ} {xs : List α} :
    (∃ e, (xs.mapM f >>= fun ys => ys.mapM g) = .error e) ↔
      ∃ x ∈ xs, ¬∃ z y, f x = .ok y ∧ g y = .ok z := by
  rw [exists_error_iff]
  simp only [mapM_bind_mapM_eq_ok, exists_forall₂]
  simp only [not_forall, exists_prop]

/-- A loop that never fails. -/
theorem foldlM_eq_ok {f : β → α → Except ε β} {g : β → α → β} {xs : List α} {init : β}
    (each : ∀ x ∈ xs, ∀ acc, f acc x = .ok (g acc x)) : xs.foldlM f init = .ok (xs.foldl g init) := by
  induction xs generalizing init with
  | nil => rfl
  | cons x xs ih =>
    obtain ⟨head, tail⟩ := List.forall_mem_cons.mp each
    rw [List.foldlM_cons, head init]
    exact ih tail

/-- What every step of a loop relates, the loop relates. -/
theorem foldlM_rel {f : β → α → Except ε β} {R : β → β → Prop} (refl : ∀ b, R b b)
    (trans : ∀ {a b c}, R a b → R b c → R a c) {xs : List α} {init final : β}
    (each : ∀ x ∈ xs, ∀ a b, f a x = .ok b → R a b) (ran : xs.foldlM f init = .ok final) :
    R init final := by
  induction xs generalizing init with
  | nil => cases ran; exact refl _
  | cons x xs ih =>
    obtain ⟨head, tail⟩ := List.forall_mem_cons.mp each
    obtain ⟨next, first, rest⟩ := bind_eq_ok.mp ran
    exact trans (head init next first) (ih tail rest)

/-- A loop whose state projects to that of another does what the other does. -/
theorem map_foldlM {γ : Type} {f : β → α → Except ε β} {g : γ → α → Except ε γ} {p : β → γ}
    {P : β → Prop} {xs : List α} {init : β}
    (each : ∀ x ∈ xs, ∀ b, P b → (f b x).map p = g (p b) x)
    (keeps : ∀ x ∈ xs, ∀ b next, P b → f b x = .ok next → P next) (start : P init) :
    (xs.foldlM f init).map p = xs.foldlM g (p init) := by
  induction xs generalizing init with
  | nil => rfl
  | cons x xs ih =>
    obtain ⟨eachHead, eachTail⟩ := List.forall_mem_cons.mp each
    obtain ⟨keepsHead, keepsTail⟩ := List.forall_mem_cons.mp keeps
    rw [List.foldlM_cons, List.foldlM_cons, ← eachHead init start]
    cases stepped : f init x with
    | error e => rfl
    | ok next => exact ih eachTail keepsTail (keepsHead init next start stepped)

/-- Elements that pass one loop, are sent, and pass two more on the other side, the first
of which sees their position. -/
theorem mapM_carry {γ δ ζ : Type} {send : α → Except ε β} {wire : β → γ}
    {receive : Nat → γ → Except ε δ} {finish : δ → Except ε ζ} {R : α → ζ → Prop} {xs : List α}
    (each : ∀ x ∈ xs, ∃ y, send x = .ok y ∧
      ∀ index, ∃ d z, receive index (wire y) = .ok d ∧ finish d = .ok z ∧ R x z) (start : Nat) :
    ∃ ys ds zs, xs.mapM send = .ok ys ∧
      ((ys.map wire).zipIdx start).mapM (fun entry => receive entry.2 entry.1) = .ok ds ∧
      ds.mapM finish = .ok zs ∧ List.Forall₂ R xs zs := by
  induction xs generalizing start with
  | nil => exact ⟨[], [], [], rfl, rfl, rfl, .nil⟩
  | cons x xs ih =>
    obtain ⟨⟨y, sent, arrives⟩, tail⟩ := List.forall_mem_cons.mp each
    obtain ⟨d, z, received, finished, related⟩ := arrives start
    obtain ⟨ys, ds, zs, sentAll, receivedAll, finishedAll, all⟩ := ih tail (start + 1)
    refine ⟨y :: ys, d :: ds, z :: zs, ?_, ?_, ?_, .cons related all⟩
    · rw [List.mapM_cons, sent, sentAll]
      rfl
    · rw [List.map_cons, List.zipIdx_cons, List.mapM_cons, received, receivedAll]
      rfl
    · rw [List.mapM_cons, finished, finishedAll]
      rfl

/-- The way of each element, where all three loops succeed. -/
theorem mapM_carried {γ δ ζ : Type} {send : α → Except ε β} {wire : β → γ}
    (receive : Nat → γ → Except ε δ) {finish : δ → Except ε ζ} {xs : List α} {ys : List β}
    {ds : List δ} {zs : List ζ} {start : Nat} (sent : xs.mapM send = .ok ys)
    (received : ((ys.map wire).zipIdx start).mapM (fun entry => receive entry.2 entry.1) = .ok ds)
    (finished : ds.mapM finish = .ok zs) :
    List.Forall₂ (fun x z => ∃ y index d, send x = .ok y ∧ receive index (wire y) = .ok d ∧
      finish d = .ok z) xs zs := by
  induction xs generalizing ys ds zs start with
  | nil =>
    cases sent
    cases received
    cases finished
    exact .nil
  | cons x xs ih =>
    obtain ⟨y, others, sentFirst, sentRest, rfl⟩ := List.forall₂_cons_left_iff.mp (mapM_eq_ok.mp sent)
    rw [List.map_cons, List.zipIdx_cons] at received
    obtain ⟨d, later, receivedFirst, receivedRest, rfl⟩ :=
      List.forall₂_cons_left_iff.mp (mapM_eq_ok.mp received)
    obtain ⟨z, last, finishedFirst, finishedRest, rfl⟩ :=
      List.forall₂_cons_left_iff.mp (mapM_eq_ok.mp finished)
    exact .cons ⟨y, start, d, sentFirst, receivedFirst, finishedFirst⟩
      (ih (mapM_eq_ok.mpr sentRest) (mapM_eq_ok.mpr receivedRest) (mapM_eq_ok.mpr finishedRest))

end Transmogr.Fallible

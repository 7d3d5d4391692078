import Mathlib.Data.List.Sort
import Transmogr.Chunks

/-! Reading a sorted list page by page: each page starts after the last element of the one before
it, and a short page is the last. -/
namespace Transmogr.Paging

variable {α β ε : Type}

/-- Full pages, then a short one. -/
def pages (size : Nat) (xs : List α) : List (List α) :=
  if size = 0 ∨ xs.length < size then [xs] else xs.take size :: pages size (xs.drop size)
termination_by xs.length
decreasing_by
  rw [List.length_drop]
  omega

theorem pages_of_lt {size : Nat} {xs : List α} (short : xs.length < size) : pages size xs = [xs] := by
  rw [pages, if_pos (.inr short)]

theorem pages_of_le {size : Nat} (pos : 0 < size) {xs : List α} (full : size ≤ xs.length) :
    pages size xs = xs.take size :: pages size (xs.drop size) := by
  rw [pages, if_neg (by omega)]

/-- A full page has a last element. -/
theorem exists_getLast?_take {size : Nat} (pos : 0 < size) {xs : List α} (full : size ≤ xs.length) :
    ∃ last, (xs.take size).getLast? = some last := by
  have filled : xs.take size ≠ [] := by
    apply List.ne_nil_of_length_pos
    rw [List.length_take]
    omega
  exact ⟨_, List.getLast?_eq_some_getLast filled⟩

theorem flatten_pages (size : Nat) (xs : List α) : (pages size xs).flatten = xs := by
  fun_induction pages with
  | case1 => simp
  | case2 xs _ ih => rw [List.flatten_cons, ih, List.take_append_drop]

/-- The pages before the last are full, and the last is not. -/
theorem pages_eq_append {size : Nat} (pos : 0 < size) (xs : List α) :
    ∃ full final, pages size xs = full ++ [final] ∧ (∀ page ∈ full, page.length = size) ∧
      final.length < size := by
  fun_induction pages with
  | case1 xs short => exact ⟨[], xs, rfl, by simp, by omega⟩
  | case2 xs long ih =>
    obtain ⟨full, final, same, sizes, short⟩ := ih
    refine ⟨xs.take size :: full, final, by rw [same, List.cons_append], ?_, short⟩
    intro page mem
    rcases List.mem_cons.mp mem with rfl | mem
    · rw [List.length_take]
      omega
    · exact sizes page mem

section Ordered

variable {κ κ' : Type} [LinearOrder κ] [LinearOrder κ'] {key : α → κ} {key' : α → κ'} {xs : List α}

/-- The elements in ascending order of their keys. -/
def ordered (key : α → κ) (xs : List α) : List α := xs.insertionSort (key · ≤ key ·)

theorem ordered_perm (key : α → κ) (xs : List α) : (ordered key xs).Perm xs :=
  List.perm_insertionSort _ xs

theorem ordered_congr (same : ∀ x y, key x ≤ key y ↔ key' x ≤ key' y) (xs : List α) :
    ordered key xs = ordered key' xs := by
  unfold ordered
  congr 1
  funext x y
  exact propext (same x y)

theorem ordered_strict (distinct : xs.Pairwise (key · ≠ key ·)) :
    (ordered key xs).Pairwise (key · < key ·) := by
  have sorted : (ordered key xs).Pairwise (key · ≤ key ·) := List.pairwise_insertionSort _ xs
  have apart : (ordered key xs).Pairwise (key · ≠ key ·) :=
    distinct.perm (ordered_perm key xs).symm fun ne => ne.symm
  exact (sorted.and apart).imp fun both => lt_of_le_of_ne both.1 both.2

/-- Two orderings of the same elements by distinct keys are one. -/
theorem eq_of_perm_of_strict {ys zs : List α} (same : ys.Perm zs)
    (left : ys.Pairwise (key · < key ·)) (right : zs.Pairwise (key · < key ·)) : ys = zs :=
  same.eq_of_pairwise (fun _ _ _ _ lt gt => absurd gt (lt_asymm lt)) left right

/-- Reading on after the last element of a page gives what the page left out. -/
theorem ordered_after_page {p : α → Bool} {size : Nat} {last : α}
    (distinct : xs.Pairwise (key · ≠ key ·))
    (ends : ((ordered key (xs.filter p)).take size).getLast? = some last) :
    ordered key (xs.filter fun x => p x && decide (key last < key x)) =
      (ordered key (xs.filter p)).drop size := by
  have strict := ordered_strict (distinct.filter p)
  rw [← Chunks.filter_lt_last_take strict ends]
  apply eq_of_perm_of_strict _ (ordered_strict (distinct.filter _)) (strict.filter _)
  have split : xs.filter (fun x => p x && decide (key last < key x)) =
      (xs.filter p).filter fun x => decide (key last < key x) := by
    rw [List.filter_filter]
    exact List.filter_congr fun x _ => Bool.and_comm _ _
  rw [split]
  exact (ordered_perm key _).trans ((ordered_perm key _).filter _).symm

end Ordered

/-- What a hand-over came to: the pieces handed over, the position after those accepted, and the
refusal that ended it. -/
structure HandOver (β σ ε : Type) where
  handed : List β
  position : σ
  refusal : Option ε

variable {σ : Type}

/-- Pieces are handed over in order until one is refused, and the position moves with each one
accepted. -/
def handOver (refuses : List β → β → Option ε) (advance : σ → β → σ) (position : σ)
    (before : List β) : List β → HandOver β σ ε
  | [] => ⟨before, position, none⟩
  | piece :: rest =>
    match refuses before piece with
    | some err => ⟨before ++ [piece], position, some err⟩
    | none => handOver refuses advance (advance position piece) (before ++ [piece]) rest

/-- Each piece is accepted after those before it. -/
def Accepted (refuses : List β → β → Option ε) (before pieces : List β) : Prop :=
  ∀ earlier piece later, pieces = earlier ++ piece :: later →
    refuses (before ++ earlier) piece = none

/-- All pieces are accepted, or the first that is not is the last one handed over. -/
inductive Handed (refuses : List β → β → Option ε) (advance : σ → β → σ) (position : σ)
    (before pieces : List β) : HandOver β σ ε → Prop where
  | all (accepted : Accepted refuses before pieces) :
      Handed refuses advance position before pieces
        ⟨before ++ pieces, pieces.foldl advance position, none⟩
  | refused (earlier : List β) (piece : β) (later : List β) (err : ε)
      (split : pieces = earlier ++ piece :: later) (accepted : Accepted refuses before earlier)
      (refusal : refuses (before ++ earlier) piece = some err) :
      Handed refuses advance position before pieces
        ⟨before ++ earlier ++ [piece], earlier.foldl advance position, some err⟩

theorem Accepted.nil {refuses : List β → β → Option ε} {before : List β} :
    Accepted refuses before [] := by
  intro earlier piece later split
  simp at split

theorem Accepted.cons {refuses : List β → β → Option ε} {before rest : List β} {piece : β}
    (first : refuses before piece = none) (accepted : Accepted refuses (before ++ [piece]) rest) :
    Accepted refuses before (piece :: rest) := by
  intro earlier other later split
  cases earlier with
  | nil =>
    obtain ⟨rfl, -⟩ := List.cons.inj split
    rwa [List.append_nil]
  | cons head earlier =>
    obtain ⟨rfl, tails⟩ := List.cons.inj split
    simpa using accepted earlier other later tails

theorem handOver_handed (refuses : List β → β → Option ε) (advance : σ → β → σ) (position : σ)
    (before pieces : List β) :
    Handed refuses advance position before pieces
      (handOver refuses advance position before pieces) := by
  induction pieces generalizing position before with
  | nil =>
    have all := @Handed.all _ _ _ refuses advance position before [] .nil
    rwa [List.append_nil] at all
  | cons piece rest ih =>
    rw [handOver]
    cases first : refuses before piece with
    | some err =>
      have refused := @Handed.refused _ _ _ refuses advance position before _ [] piece rest err rfl
        .nil (by rwa [List.append_nil])
      rwa [List.append_nil] at refused
    | none =>
      have onward := ih (advance position piece) (before ++ [piece])
      generalize handOver refuses advance (advance position piece) (before ++ [piece]) rest = result
        at onward ⊢
      cases onward with
      | all accepted =>
        rw [List.append_assoc, List.singleton_append]
        exact .all (accepted.cons first)
      | refused earlier other later err split accepted refusal =>
        have refused := @Handed.refused _ _ _ refuses advance position before _ (piece :: earlier) other
          later err (show piece :: rest = _ by rw [split, List.cons_append]) (accepted.cons first)
            (by simpa using refusal)
        simpa using refused

end Transmogr.Paging

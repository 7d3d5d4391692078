import Mathlib.Data.List.Basic
import Mathlib.Order.Lattice

/-! Cutting a list into pieces of a given size. -/
namespace Transmogr.Chunks

variable {α : Type}

/-- Pieces of `size` elements while fuel lasts. -/
def cut (size : Nat) : Nat → List α → List (List α)
  | 0, _ => []
  | _, [] => []
  | fuel + 1, x :: xs => (x :: xs).take size :: cut size fuel ((x :: xs).drop size)

/-- Pieces of at most `size` elements; `size` is positive. -/
def chunks (size : Nat) (xs : List α) : List (List α) := cut size xs.length xs

theorem flatten_cut {size : Nat} (pos : 0 < size) {fuel : Nat} {xs : List α}
    (enough : xs.length ≤ fuel) : (cut size fuel xs).flatten = xs := by
  induction fuel generalizing xs with
  | zero =>
    cases xs with
    | nil => rfl
    | cons x xs => simp at enough
  | succ fuel ih =>
    cases xs with
    | nil => rfl
    | cons x xs =>
      have rest : ((x :: xs).drop size).length ≤ fuel := by
        simp only [List.length_drop, List.length_cons] at enough ⊢
        omega
      rw [cut, List.flatten_cons, ih rest, List.take_append_drop]

/-- The pieces make up the list. -/
theorem flatten_chunks {size : Nat} (pos : 0 < size) (xs : List α) :
    (chunks size xs).flatten = xs :=
  flatten_cut pos (Nat.le_refl _)

/-- More fuel than elements changes nothing. -/
theorem cut_congr {size : Nat} (pos : 0 < size) {fuel fuel' : Nat} {xs : List α}
    (enough : xs.length ≤ fuel) (enough' : xs.length ≤ fuel') : cut size fuel xs = cut size fuel' xs := by
  induction fuel generalizing fuel' xs with
  | zero =>
    obtain rfl : xs = [] := List.length_eq_zero_iff.mp (by omega)
    cases fuel' <;> rfl
  | succ fuel ih =>
    cases xs with
    | nil => cases fuel' <;> rfl
    | cons x xs =>
      cases fuel' with
      | zero => simp at enough'
      | succ fuel' =>
        have shorter : ((x :: xs).drop size).length ≤ xs.length := by
          rw [List.length_drop, List.length_cons]
          omega
        rw [List.length_cons] at enough enough'
        have rest := @ih fuel' _ (Nat.le_trans shorter (by omega)) (Nat.le_trans shorter (by omega))
        rw [cut, cut, rest]

theorem chunks_cons {size : Nat} (pos : 0 < size) (x : α) (xs : List α) :
    chunks size (x :: xs) = (x :: xs).take size :: chunks size ((x :: xs).drop size) := by
  have shorter : ((x :: xs).drop size).length ≤ xs.length := by
    rw [List.length_drop, List.length_cons]
    omega
  rw [chunks, List.length_cons, cut, chunks, cut_congr pos shorter (Nat.le_refl _)]

theorem ne_nil_of_mem_cut {size : Nat} (pos : 0 < size) {fuel : Nat} {xs piece : List α}
    (mem : piece ∈ cut size fuel xs) : piece ≠ [] := by
  induction fuel generalizing xs with
  | zero => cases mem
  | succ fuel ih =>
    cases xs with
    | nil => cases mem
    | cons x xs =>
      rcases List.mem_cons.mp mem with rfl | mem
      · obtain ⟨k, rfl⟩ : ∃ k, size = k + 1 := ⟨size - 1, by omega⟩
        simp
      · exact ih mem

theorem ne_nil_of_mem_chunks {size : Nat} (pos : 0 < size) {xs piece : List α}
    (mem : piece ∈ chunks size xs) : piece ≠ [] :=
  ne_nil_of_mem_cut pos mem

theorem length_le_of_mem_cut {size fuel : Nat} {xs piece : List α} (mem : piece ∈ cut size fuel xs) :
    piece.length ≤ size := by
  induction fuel generalizing xs with
  | zero => simp [cut] at mem
  | succ fuel ih =>
    cases xs with
    | nil => simp [cut] at mem
    | cons x xs =>
      rcases List.mem_cons.mp mem with rfl | later
      · exact List.length_take_le _ _
      · exact ih later

theorem length_le_of_mem_chunks {size : Nat} {xs piece : List α} (mem : piece ∈ chunks size xs) :
    piece.length ≤ size :=
  length_le_of_mem_cut mem

theorem sublist_of_mem_chunks {size : Nat} (pos : 0 < size) {xs piece : List α}
    (mem : piece ∈ chunks size xs) : piece.Sublist xs := by
  have := List.sublist_flatten_of_mem mem
  rwa [flatten_chunks pos] at this

theorem cut_map {β : Type} (f : α → β) (size fuel : Nat) (xs : List α) :
    cut size fuel (xs.map f) = (cut size fuel xs).map (·.map f) := by
  induction fuel generalizing xs with
  | zero => rfl
  | succ fuel ih =>
    cases xs with
    | nil => rfl
    | cons x xs =>
      have rest := ih ((x :: xs).drop size)
      rw [List.map_drop, List.map_cons] at rest
      rw [List.map_cons, cut, cut, List.map_cons, List.map_take, List.map_cons, rest]

theorem chunks_map {β : Type} (f : α → β) (size : Nat) (xs : List α) :
    chunks size (xs.map f) = (chunks size xs).map (·.map f) := by
  rw [chunks, List.length_map, cut_map, chunks]

/-- Reading on after the last element of a page finds what the page left out. -/
theorem filter_lt_last_take {κ : Type} [LinearOrder κ] {key : α → κ} {xs : List α} {last : α}
    {size : Nat} (sorted : xs.Pairwise (key · < key ·)) (found : (xs.take size).getLast? = some last) :
    xs.filter (key last < key ·) = xs.drop size := by
  obtain ⟨page, split⟩ := List.getLast?_eq_some_iff.mp found
  have whole : xs = page ++ last :: xs.drop size := by
    have := List.take_append_drop size xs
    rw [split, List.append_assoc] at this
    exact this.symm
  rw [whole] at sorted
  obtain ⟨_, later, before⟩ := List.pairwise_append.mp sorted
  conv_lhs => rw [whole]
  rw [List.filter_append, List.filter_cons_of_neg (by simp), List.filter_eq_nil_iff.mpr, List.nil_append,
    List.filter_eq_self.mpr]
  · intro x mem
    exact decide_eq_true (List.rel_of_pairwise_cons later mem)
  · intro x mem
    have less : key x < key last := before x mem last List.mem_cons_self
    simpa using le_of_lt less

/-- A page of a sorted list has everything up to its last element. -/
theorem mem_take_of_le_last {κ : Type} [LinearOrder κ] {key : α → κ} {xs : List α} {size : Nat}
    (sorted : xs.Pairwise (key · ≤ key ·)) (distinct : ∀ x ∈ xs, ∀ y ∈ xs, key x = key y → x = y)
    {x last : α} (ends : (xs.take size).getLast? = some last) (mem : x ∈ xs)
    (le : key x ≤ key last) : x ∈ xs.take size := by
  have inPage := List.mem_of_getLast? ends
  have split : x ∈ xs.take size ++ xs.drop size := by rwa [List.take_append_drop]
  rw [← List.take_append_drop size xs] at sorted
  by_cases here : x ∈ xs.take size
  · exact here
  · -- what the page left out is not below its last element
    have later : x ∈ xs.drop size := (List.mem_append.mp split).resolve_left here
    have ge := (List.pairwise_append.mp sorted).2.2 last inPage x later
    have same := distinct x mem last (List.mem_of_mem_take inPage) (le_antisymm le ge)
    rwa [same]

/-- A sorted list is what lies up to a bound followed by what lies above it. -/
theorem filter_le_append_filter_lt {key : α → Nat} {xs : List α} (bound : Nat)
    (sorted : xs.Pairwise (key · ≤ key ·)) :
    xs.filter (key · ≤ bound) ++ xs.filter (bound < key ·) = xs := by
  induction xs with
  | nil => rfl
  | cons x xs ih =>
    obtain ⟨first, rest⟩ := List.pairwise_cons.mp sorted
    by_cases low : key x ≤ bound
    · rw [List.filter_cons_of_pos (by simpa using low), List.filter_cons_of_neg (by simpa using low),
        List.cons_append, ih rest]
    · have high : ∀ y ∈ x :: xs, bound < key y := by
        intro y mem
        rcases List.mem_cons.mp mem with rfl | mem
        · omega
        · have := first y mem
          omega
      rw [List.filter_eq_nil_iff.mpr, List.filter_eq_self.mpr, List.nil_append]
      · intro y mem
        simpa using high y mem
      · intro y mem
        simpa using high y mem

/-- What holds from each element to the later ones holds along the key they are
sorted by. -/
theorem rel_of_key_lt {R : α → α → Prop} {key : α → Nat} {xs : List α} {x y : α}
    (sorted : xs.Pairwise (key · < key ·)) (rel : xs.Pairwise R) (memX : x ∈ xs) (memY : y ∈ xs)
    (lt : key x < key y) : R x y := by
  induction xs with
  | nil => cases memX
  | cons a xs ih =>
    obtain ⟨first, rest⟩ := List.pairwise_cons.mp sorted
    obtain ⟨firstRel, restRel⟩ := List.pairwise_cons.mp rel
    rcases List.mem_cons.mp memX with rfl | inX
    · rcases List.mem_cons.mp memY with rfl | inY
      · exact absurd lt (Nat.lt_irrefl _)
      · exact firstRel y inY
    · rcases List.mem_cons.mp memY with rfl | inY
      · exact absurd (first x inX) (Nat.lt_asymm lt)
      · exact ih rest restRel inX inY

theorem take_drop_of_drop_eq_cons {xs others : List α} {x : α} {k : Nat}
    (rest : xs.drop k = x :: others) :
    k < xs.length ∧ xs.take (k + 1) = xs.take k ++ [x] ∧ xs.drop (k + 1) = others := by
  have found : xs[k]? = some x := by
    rw [← List.head?_drop, rest]
    rfl
  refine ⟨(List.getElem?_eq_some_iff.mp found).1, ?_, ?_⟩
  · rw [List.take_add_one, found]
    rfl
  · rw [← List.drop_drop, rest]
    rfl

end Transmogr.Chunks

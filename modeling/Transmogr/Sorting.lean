import Mathlib.Data.List.Nodup
import Mathlib.Data.List.Sort
import Transmogr.TextOrder

/-! Sorting by a three-way comparison that may not be stable. The result is determined as soon as no
two elements tie. -/
namespace Transmogr

/-- A three-way comparison that orders up to ties. -/
structure WeakOrder {α : Type} (cmp : α → α → Int) : Prop where
  swap : ∀ a b, cmp a b = -cmp b a
  trans : ∀ a b c, cmp a b ≤ 0 → cmp b c ≤ 0 → cmp a c ≤ 0

theorem WeakOrder.flip {α : Type} {cmp : α → α → Int} (order : WeakOrder cmp) :
    WeakOrder fun a b => cmp b a where
  swap a b := order.swap b a
  trans a b c first second := order.trans c b a second first

/-- A sort with a comparison function. Elements that tie may end up in any order. -/
structure SortFunc where
  sort : {α : Type} → (α → α → Int) → List α → List α
  perm : ∀ {α : Type} (cmp : α → α → Int) xs, (sort cmp xs).Perm xs
  sorted : ∀ {α : Type} {cmp : α → α → Int}, WeakOrder cmp → ∀ xs,
    (sort cmp xs).Pairwise fun a b => cmp a b ≤ 0

namespace SortFunc

variable {α β : Type} (slices : SortFunc) {cmp : α → α → Int} {key : α → β} {xs ys : List α}

/-- Of elements with distinct keys there is one arrangement in order, if ties have equal keys. -/
theorem eq_sort (order : WeakOrder cmp) (ties : ∀ a b, cmp a b = 0 → key a = key b)
    (distinct : (xs.map key).Nodup) (perm : ys.Perm xs) (sorted : ys.Pairwise fun a b => cmp a b ≤ 0) :
    ys = slices.sort cmp xs := by
  refine List.Perm.eq_of_pairwise ?_ sorted (slices.sorted order xs) (perm.trans (slices.perm cmp xs).symm)
  intro a b inside inside' le ge
  have tie : cmp a b = 0 := by
    have swapped := order.swap a b
    omega
  exact List.inj_on_of_nodup_map distinct (perm.subset inside) ((slices.perm cmp xs).subset inside')
    (ties a b tie)

theorem sort_eq_of_perm (order : WeakOrder cmp) (ties : ∀ a b, cmp a b = 0 → key a = key b)
    (distinct : (xs.map key).Nodup) (perm : ys.Perm xs) : slices.sort cmp ys = slices.sort cmp xs :=
  slices.eq_sort order ties distinct ((slices.perm cmp ys).trans perm) (slices.sorted order ys)

/-- Lists that sort to the same list have the same elements. -/
theorem perm_of_sort_eq (same : slices.sort cmp xs = slices.sort cmp ys) : xs.Perm ys :=
  (slices.perm cmp xs).symm.trans (same ▸ slices.perm cmp ys)

end SortFunc

/-- Insertion sort is one. -/
def SortFunc.insertion : SortFunc where
  sort cmp xs := xs.insertionSort fun a b => cmp a b ≤ 0
  perm cmp xs := List.perm_insertionSort _ xs
  sorted {α cmp} order xs := by
    have total : Std.Total fun a b : α => cmp a b ≤ 0 := ⟨fun a b => by
      have swapped := order.swap a b
      omega⟩
    have trans : IsTrans α fun a b => cmp a b ≤ 0 := ⟨order.trans⟩
    exact List.pairwise_insertionSort _ xs

theorem weakOrder_texts {α : Type} (name : α → String) :
    WeakOrder fun left right => compareTexts (name left) (name right) where
  swap left right := by
    rw [compareTexts_eq, compareTexts_eq, ← sign_swap]
    exact congrArg sign Std.OrientedCmp.eq_swap
  trans a b c first second := by
    rw [compareTexts_eq, sign_le_zero] at first second ⊢
    exact Std.TransCmp.isLE_trans first second

end Transmogr

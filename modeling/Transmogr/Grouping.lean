import Mathlib.Data.List.Induction
import Mathlib.Data.List.Perm.Basic

/-! Grouping a list by a key in order of first appearance, and keeping the last
element of each key. -/
namespace Transmogr.Grouping

variable {κ α : Type} [DecidableEq κ]

def addTo (k : κ) (x : α) : List (κ × List α) → List (κ × List α)
  | [] => [(k, [x])]
  | (k', ys) :: rest => if k' = k then (k', ys ++ [x]) :: rest else (k', ys) :: addTo k x rest

def groups (key : α → κ) (xs : List α) : List (κ × List α) :=
  xs.foldl (fun gs x => addTo (key x) x gs) []

def putLast (k : κ) (x : α) : List (κ × α) → List (κ × α)
  | [] => [(k, x)]
  | (k', y) :: rest => if k' = k then (k', x) :: rest else (k', y) :: putLast k x rest

def lastPerKey (key : α → κ) (xs : List α) : List α :=
  (xs.foldl (fun kept x => putLast (key x) x kept) []).map Prod.snd

/-- Every group is a non-empty list of elements with its key. -/
def ByKey (key : α → κ) (gs : List (κ × List α)) : Prop :=
  ∀ g ∈ gs, g.2 ≠ [] ∧ ∀ x ∈ g.2, key x = g.1

theorem byKey_addTo {key : α → κ} {x : α} {gs : List (κ × List α)} (byKey : ByKey key gs) :
    ByKey key (addTo (key x) x gs) := by
  induction gs with
  | nil =>
    intro g mem
    obtain rfl := List.mem_singleton.mp mem
    simp
  | cons first rest ih =>
    obtain ⟨head, tail⟩ := List.forall_mem_cons.mp byKey
    unfold addTo
    split
    · next same =>
      refine List.forall_mem_cons.mpr ⟨⟨by simp, ?_⟩, tail⟩
      intro y mem
      rcases List.mem_append.mp mem with old | new
      · exact head.2 y old
      · rw [List.mem_singleton.mp new]
        exact same.symm
    · exact List.forall_mem_cons.mpr ⟨head, ih tail⟩

theorem groups_byKey (key : α → κ) (xs : List α) : ByKey key (groups key xs) := by
  induction xs using List.reverseRecOn with
  | nil => exact fun g mem => nomatch mem
  | append_singleton xs x ih =>
    rw [groups, List.foldl_append]
    exact byKey_addTo ih

theorem perm_addTo (k : κ) (x : α) (gs : List (κ × List α)) :
    ((addTo k x gs).flatMap Prod.snd).Perm (gs.flatMap Prod.snd ++ [x]) := by
  induction gs with
  | nil => exact List.Perm.refl _
  | cons first rest ih =>
    unfold addTo
    split
    · simp only [List.flatMap_cons, List.append_assoc]
      exact List.Perm.append_left _ List.perm_append_comm
    · simp only [List.flatMap_cons, List.append_assoc]
      exact List.Perm.append_left _ ih

/-- The groups hold every element once. -/
theorem groups_perm (key : α → κ) (xs : List α) : ((groups key xs).flatMap Prod.snd).Perm xs := by
  induction xs using List.reverseRecOn with
  | nil => exact List.Perm.refl _
  | append_singleton xs x ih =>
    rw [groups, List.foldl_append]
    exact (perm_addTo _ _ _).trans (List.Perm.append_right _ ih)

theorem groups_pairwise {key : α → κ} {xs : List α} {R : α → α → Prop} (symm : ∀ {x y}, R x y → R y x)
    (pairs : xs.Pairwise R) {g : κ × List α} (group : g ∈ groups key xs) : g.2.Pairwise R :=
  (List.pairwise_flatMap.mp ((groups_perm key xs).symm.pairwise pairs symm)).1 g group

theorem mem_of_mem_groups {key : α → κ} {xs : List α} {g : κ × List α} {x : α}
    (group : g ∈ groups key xs) (mem : x ∈ g.2) : x ∈ xs :=
  (groups_perm key xs).mem_iff.mp (List.mem_flatMap.mpr ⟨g, group, mem⟩)

theorem mem_putLast {k : κ} {x : α} {kept : List (κ × α)} {entry : κ × α}
    (distinct : kept.Pairwise (·.1 ≠ ·.1)) :
    entry ∈ putLast k x kept ↔ entry = (k, x) ∨ (entry ∈ kept ∧ entry.1 ≠ k) := by
  induction kept with
  | nil => simp [putLast]
  | cons first rest ih =>
    obtain ⟨head, tail⟩ := List.pairwise_cons.mp distinct
    unfold putLast
    by_cases same : first.1 = k
    · have others : entry ∈ rest → entry.1 ≠ k := fun mem => same ▸ (head entry mem).symm
      rw [if_pos same, List.mem_cons, same]
      constructor
      · rintro (eq | mem)
        · exact .inl eq
        · exact .inr ⟨List.mem_cons_of_mem first mem, others mem⟩
      · rintro (eq | ⟨mem, differs⟩)
        · exact .inl eq
        · rcases List.mem_cons.mp mem with rfl | later
          · exact absurd same differs
          · exact .inr later
    · rw [if_neg same, List.mem_cons, ih tail, List.mem_cons]
      constructor
      · rintro (rfl | eq | ⟨mem, differs⟩)
        · exact .inr ⟨.inl rfl, same⟩
        · exact .inl eq
        · exact .inr ⟨.inr mem, differs⟩
      · rintro (eq | ⟨rfl | mem, differs⟩)
        · exact .inr (.inl eq)
        · exact .inl rfl
        · exact .inr (.inr ⟨mem, differs⟩)

theorem putLast_distinct {k : κ} {x : α} {kept : List (κ × α)}
    (distinct : kept.Pairwise (·.1 ≠ ·.1)) : (putLast k x kept).Pairwise (·.1 ≠ ·.1) := by
  induction kept with
  | nil => exact List.pairwise_singleton _ _
  | cons first rest ih =>
    obtain ⟨head, tail⟩ := List.pairwise_cons.mp distinct
    unfold putLast
    by_cases same : first.1 = k
    · rw [if_pos same]
      exact List.pairwise_cons.mpr ⟨head, tail⟩
    · rw [if_neg same]
      refine List.pairwise_cons.mpr ⟨fun entry mem => ?_, ih tail⟩
      rcases (mem_putLast tail).mp mem with rfl | ⟨old, -⟩
      · exact same
      · exact head entry old

/-- The kept elements stand under their own keys, each key once. -/
theorem kept_byKey (key : α → κ) (xs : List α) :
    let kept := xs.foldl (fun kept x => putLast (key x) x kept) []
    kept.Pairwise (·.1 ≠ ·.1) ∧ ∀ entry ∈ kept, key entry.2 = entry.1 := by
  induction xs using List.reverseRecOn with
  | nil => exact ⟨.nil, nofun⟩
  | append_singleton xs x ih =>
    rw [List.foldl_append]
    refine ⟨putLast_distinct ih.1, fun entry mem => ?_⟩
    rcases (mem_putLast ih.1).mp mem with rfl | ⟨old, -⟩
    · rfl
    · exact ih.2 entry old

theorem mem_lastPerKey_append {key : α → κ} {xs : List α} {x y : α} :
    y ∈ lastPerKey key (xs ++ [x]) ↔ y = x ∨ (y ∈ lastPerKey key xs ∧ key y ≠ key x) := by
  obtain ⟨distinct, byKey⟩ := kept_byKey key xs
  simp only [lastPerKey, List.foldl_append, List.foldl_cons, List.foldl_nil, List.mem_map,
    mem_putLast distinct]
  constructor
  · rintro ⟨entry, rfl | ⟨old, differs⟩, rfl⟩
    · exact .inl rfl
    · exact .inr ⟨⟨entry, old, rfl⟩, byKey entry old ▸ differs⟩
  · rintro (rfl | ⟨⟨entry, old, rfl⟩, differs⟩)
    · exact ⟨_, .inl rfl, rfl⟩
    · exact ⟨entry, .inr ⟨old, byKey entry old ▸ differs⟩, rfl⟩

/-- An element is kept if no later one has its key. -/
theorem mem_lastPerKey_cons {key : α → κ} {xs : List α} {x y : α} :
    y ∈ lastPerKey key (x :: xs) ↔
      y ∈ lastPerKey key xs ∨ (y = x ∧ ∀ z ∈ xs, key z ≠ key x) := by
  induction xs using List.reverseRecOn with
  | nil => simp [lastPerKey, putLast]
  | append_singleton xs z ih =>
    rw [← List.cons_append, mem_lastPerKey_append, mem_lastPerKey_append, ih, List.forall_mem_append,
      List.forall_mem_singleton]
    constructor
    · rintro (last | ⟨kept | ⟨rfl, others⟩, differs⟩)
      · exact .inl (.inl last)
      · exact .inl (.inr ⟨kept, differs⟩)
      · exact .inr ⟨rfl, others, differs.symm⟩
    · rintro ((last | ⟨kept, differs⟩) | ⟨rfl, others, differs⟩)
      · exact .inl last
      · exact .inr ⟨.inl kept, differs⟩
      · exact .inr ⟨.inr ⟨rfl, others⟩, differs.symm⟩

theorem lastPerKey_distinct (key : α → κ) (xs : List α) :
    (lastPerKey key xs).Pairwise fun x y => key x ≠ key y := by
  obtain ⟨distinct, byKey⟩ := kept_byKey key xs
  rw [lastPerKey, List.pairwise_map]
  refine distinct.imp_of_mem ?_
  intro a b memA memB differs
  rwa [byKey a memA, byKey b memB]

theorem mem_of_mem_lastPerKey {key : α → κ} {xs : List α} {x : α} (mem : x ∈ lastPerKey key xs) :
    x ∈ xs := by
  induction xs with
  | nil => cases mem
  | cons first rest ih =>
    rcases mem_lastPerKey_cons.mp mem with later | ⟨rfl, -⟩
    · exact List.mem_cons_of_mem first (ih later)
    · exact List.mem_cons_self

/-- A kept element is the last of its key. -/
theorem filter_of_mem_lastPerKey {key : α → κ} {xs : List α} {y : α} (kept : y ∈ lastPerKey key xs) :
    (xs.filter fun x => key x = key y) = (xs.filter fun x => key x = key y).dropLast ++ [y] := by
  induction xs using List.reverseRecOn with
  | nil => cases kept
  | append_singleton xs x ih =>
    rcases mem_lastPerKey_append.mp kept with rfl | ⟨old, differs⟩
    · simp
    · simpa [List.filter_append, differs.symm] using ih old

theorem mem_groups_of_mem {key : α → κ} {xs : List α} {x : α} (mem : x ∈ xs) :
    ∃ g ∈ groups key xs, x ∈ g.2 :=
  List.mem_flatMap.mp ((groups_perm key xs).mem_iff.mpr mem)

/-- Every key keeps an element. -/
theorem exists_mem_lastPerKey {key : α → κ} {xs : List α} {x : α} (mem : x ∈ xs) :
    ∃ y ∈ lastPerKey key xs, key y = key x := by
  induction xs generalizing x with
  | nil => cases mem
  | cons first rest ih =>
    by_cases later : ∃ z ∈ rest, key z = key x
    · obtain ⟨z, inRest, same⟩ := later
      obtain ⟨y, kept, sameAs⟩ := ih inRest
      exact ⟨y, mem_lastPerKey_cons.mpr (.inl kept), sameAs.trans same⟩
    · have none : ∀ z ∈ rest, key z ≠ key x := fun z inRest same => later ⟨z, inRest, same⟩
      rcases List.mem_cons.mp mem with rfl | inRest
      · exact ⟨x, mem_lastPerKey_cons.mpr (.inr ⟨rfl, none⟩), rfl⟩
      · exact absurd rfl (none x inRest)

theorem putLast_of_fresh {k : κ} {x : α} {kept : List (κ × α)} (fresh : ∀ y ∈ kept, y.1 ≠ k) :
    putLast k x kept = kept ++ [(k, x)] := by
  induction kept with
  | nil => rfl
  | cons first rest ih =>
    obtain ⟨differs, tail⟩ := List.forall_mem_cons.mp fresh
    rw [putLast, if_neg differs, ih tail]
    rfl

/-- Nothing is dropped where no key repeats. -/
theorem lastPerKey_of_pairwise {key : α → κ} {xs : List α}
    (distinct : xs.Pairwise fun x y => key x ≠ key y) : lastPerKey key xs = xs := by
  have kept : xs.foldl (fun kept x => putLast (key x) x kept) [] = xs.map fun x => (key x, x) := by
    induction xs using List.reverseRecOn with
    | nil => rfl
    | append_singleton xs x ih =>
      obtain ⟨earlier, _, apart⟩ := List.pairwise_append.mp distinct
      rw [List.foldl_append, ih earlier, List.map_append]
      apply putLast_of_fresh
      intro entry mem
      obtain ⟨y, old, rfl⟩ := List.mem_map.mp mem
      exact apart y old x (List.mem_singleton_self x)
  rw [lastPerKey, kept, List.map_map]
  exact List.map_id xs

end Transmogr.Grouping

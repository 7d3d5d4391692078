import Mathlib.Data.List.Basic
import Mathlib.Logic.Function.Basic

/-! Items that arrive one after another, each for a key and at a position, and the greatest position
so far of every key. An item is kept if it is beyond the greatest position of its key. -/
namespace Transmogr.RunningMax

variable {ι κ P : Type}

/-- A strict weak order on the positions that occur. -/
structure OrderOn (before : P → P → Prop) (occurs : P → Prop) : Prop where
  asymm : ∀ p q, before p q → ¬ before q p
  trans : ∀ p q r, occurs p → occurs q → occurs r → ¬ before q p → before q r → before p r

variable (key : ι → κ) (pos : ι → P) (before : P → P → Prop)

/-- A position that was there at the start or came with an item. -/
def Seen (start : κ → P) (items : List ι) (k : κ) (p : P) : Prop :=
  p = start k ∨ ∃ item ∈ items, key item = k ∧ p = pos item

/-- The position was seen, and none beyond it. -/
def Greatest (start : κ → P) (items : List ι) (k : κ) (p : P) : Prop :=
  Seen key pos start items k p ∧ ∀ q, Seen key pos start items k q → ¬ before p q

variable {key pos before} {start running : κ → P} {items earlier : List ι} {item : ι}
  {occurs : P → Prop}

theorem greatest_start (order : OrderOn before occurs) (k : κ) :
    Greatest key pos before start [] k (start k) := by
  constructor
  · exact .inl rfl
  · rintro q (rfl | ⟨_, mem, _⟩)
    · exact fun self => order.asymm _ _ self self
    · cases mem

/-- Beyond the greatest position is beyond every position seen. -/
theorem before_iff_beyond (order : OrderOn before occurs)
    (starts : ∀ k, occurs (start k)) (came : ∀ other ∈ earlier, occurs (pos other))
    (here : occurs (pos item))
    (greatest : Greatest key pos before start earlier (key item) (running (key item))) :
    before (running (key item)) (pos item) ↔
      before (start (key item)) (pos item) ∧
        ∀ other ∈ earlier, key other = key item → before (pos other) (pos item) := by
  obtain ⟨seen, most⟩ := greatest
  have reached : occurs (running (key item)) := by
    rcases seen with eq | ⟨other, mem, -, eq⟩
    · rw [eq]
      exact starts _
    · rw [eq]
      exact came other mem
  constructor
  · intro beyond
    constructor
    · exact order.trans _ _ _ (starts _) reached here (most _ (.inl rfl)) beyond
    · intro other mem same
      exact order.trans _ _ _ (came other mem) reached here (most _ (.inr ⟨other, mem, same, rfl⟩))
        beyond
  · rintro ⟨first, others⟩
    rcases seen with eq | ⟨other, mem, same, eq⟩
    · rw [eq]
      exact first
    · rw [eq]
      exact others other mem same

theorem seen_append {k : κ} {p : P} :
    Seen key pos start (earlier ++ [item]) k p ↔
      Seen key pos start earlier k p ∨ key item = k ∧ p = pos item := by
  simp only [Seen, List.mem_append, List.mem_singleton, or_and_right, exists_or, exists_eq_left,
    or_assoc]

/-- An item that is not kept changes no greatest position. -/
theorem greatest_skip (greatest : ∀ k, Greatest key pos before start earlier k (running k))
    (behind : ¬ before (running (key item)) (pos item)) (k : κ) :
    Greatest key pos before start (earlier ++ [item]) k (running k) := by
  refine ⟨seen_append.mpr (.inl (greatest k).1), fun q seen => ?_⟩
  rcases seen_append.mp seen with seen | ⟨rfl, rfl⟩
  · exact (greatest k).2 q seen
  · exact behind

variable [DecidableEq κ]

section Carried

variable (key pos)

/-- The greatest positions after one item that is kept. -/
def advance (running : κ → P) (item : ι) : κ → P := Function.update running (key item) (pos item)

variable (before) [DecidableRel before]

/-- The items kept, with the greatest positions carried along. -/
def kept (running : κ → P) : List ι → List ι
  | [] => []
  | item :: items =>
    if before (running (key item)) (pos item) then item :: kept (advance key pos running item) items
    else kept running items

/-- The items beyond everything seen before them. -/
def records (start : κ → P) (earlier : List ι) : List ι → List ι
  | [] => []
  | item :: items =>
    if before (start (key item)) (pos item) ∧
        ∀ other ∈ earlier, key other = key item → before (pos other) (pos item) then
      item :: records start (earlier ++ [item]) items
    else records start (earlier ++ [item]) items

end Carried

/-- An item that is kept is the greatest of its key now. -/
theorem greatest_advance (order : OrderOn before occurs)
    (greatest : ∀ k, Greatest key pos before start earlier k (running k))
    (beyond : before (start (key item)) (pos item) ∧
      ∀ other ∈ earlier, key other = key item → before (pos other) (pos item)) (k : κ) :
    Greatest key pos before start (earlier ++ [item]) k (advance key pos running item k) := by
  by_cases same : k = key item
  · subst same
    rw [advance, Function.update_self]
    refine ⟨seen_append.mpr (.inr ⟨rfl, rfl⟩), fun q seen => ?_⟩
    rcases seen_append.mp seen with (rfl | ⟨other, mem, same, rfl⟩) | ⟨-, rfl⟩
    · exact order.asymm _ _ beyond.1
    · exact order.asymm _ _ (beyond.2 other mem same)
    · exact fun self => order.asymm _ _ self self
  · rw [advance, Function.update_of_ne same]
    refine ⟨seen_append.mpr (.inl (greatest k).1), fun q seen => ?_⟩
    rcases seen_append.mp seen with seen | ⟨here, -⟩
    · exact (greatest k).2 q seen
    · exact absurd here.symm same

variable [DecidableRel before]

/-- What is kept are the records, and the positions carried along end at the greatest ones. -/
theorem kept_spec (order : OrderOn before occurs) (starts : ∀ k, occurs (start k))
    (came : ∀ other ∈ earlier, occurs (pos other)) (come : ∀ item ∈ items, occurs (pos item))
    (greatest : ∀ k, Greatest key pos before start earlier k (running k)) :
    kept key pos before running items = records key pos before start earlier items ∧
      ∀ k, Greatest key pos before start (earlier ++ items) k
        ((kept key pos before running items).foldl (advance key pos) running k) := by
  induction items generalizing running earlier with
  | nil => simpa [kept, records] using greatest
  | cons item items ih =>
    have here := come item List.mem_cons_self
    have rest : ∀ item ∈ items, occurs (pos item) := fun i mem => come i (List.mem_cons_of_mem _ mem)
    have came' : ∀ other ∈ earlier ++ [item], occurs (pos other) := by
      simpa [or_imp, forall_and, here] using came
    have beyond := before_iff_beyond order starts came here (greatest _)
    rw [List.append_cons, kept, records]
    by_cases ahead : before (running (key item)) (pos item)
    · obtain ⟨same, ends⟩ := ih came' rest (greatest_advance order greatest (beyond.mp ahead))
      rw [if_pos ahead, if_pos (beyond.mp ahead), same]
      exact ⟨rfl, same ▸ ends⟩
    · rw [if_neg ahead, if_neg (mt beyond.mpr ahead)]
      exact ih came' rest (greatest_skip greatest ahead)

/-- Of items that ascend under each key, those beyond the start are the records. -/
theorem records_of_ascending
    (ascending : (earlier ++ items).Pairwise fun a b => key a = key b → before (pos a) (pos b)) :
    records key pos before start earlier items =
      items.filter fun item => before (start (key item)) (pos item) := by
  induction items generalizing earlier with
  | nil => rfl
  | cons item items ih =>
    rw [List.append_cons] at ascending
    have below : ∀ other ∈ earlier, key other = key item → before (pos other) (pos item) :=
      fun other mem => (List.pairwise_append.mp (List.pairwise_append.mp ascending).1).2.2 other mem
        item (List.mem_singleton_self item)
    rw [records, ih ascending, List.filter_cons]
    by_cases first : before (start (key item)) (pos item)
    · rw [if_pos ⟨first, below⟩, if_pos (decide_eq_true first)]
    · rw [if_neg fun both => first both.1, if_neg (by simpa using first)]

end Transmogr.RunningMax

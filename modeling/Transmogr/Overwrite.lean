import Mathlib.Data.List.Basic

/-! Changes that overwrite one record: set it, overwrite some of its columns, or
remove it. Replaying a stretch of them over its own result changes nothing. -/
namespace Transmogr.Overwrite

variable {κ β : Type} [DecidableEq κ]

inductive Change (κ β : Type)
  | put (row : κ → β)
  | patch (columns : List κ) (row : κ → β)
  | remove

def overlay (target source : κ → β) (columns : List κ) : κ → β := fun column =>
  if column ∈ columns then source column else target column

/-- A patch of an absent record does nothing. -/
def Change.apply : Change κ β → Option (κ → β) → Option (κ → β)
  | .put row, _ => some row
  | .patch columns row, target => target.map (overlay · row columns)
  | .remove, _ => none

def replay (changes : List (Change κ β)) (target : Option (κ → β)) : Option (κ → β) :=
  changes.foldl (fun target change => change.apply target) target

theorem replay_append (changes later : List (Change κ β)) (target : Option (κ → β)) :
    replay (changes ++ later) target = replay later (replay changes target) :=
  List.foldl_append

theorem overlay_overlay (target first second : κ → β) (columns columns' : List κ) :
    overlay (overlay target first columns) second columns' =
      overlay target (overlay first second columns') (columns ++ columns') := by
  funext column
  unfold overlay
  by_cases later : column ∈ columns'
  · simp [later]
  · by_cases earlier : column ∈ columns <;> simp [later, earlier]

theorem overlay_self (target source : κ → β) (columns : List κ) :
    overlay (overlay target source columns) source columns = overlay target source columns := by
  funext column
  unfold overlay
  by_cases mem : column ∈ columns <;> simp [mem]

/-- A stretch of changes forgets the record it starts from, or is one patch. -/
theorem replay_cases (changes : List (Change κ β)) :
    (∃ result, ∀ target, replay changes target = result) ∨
      ∃ columns row, ∀ target, replay changes target = target.map (overlay · row columns) := by
  induction changes with
  | nil =>
    by_cases some : Nonempty (κ → β)
    · refine Or.inr ⟨[], some.some, fun target => ?_⟩
      have same : (overlay · some.some []) = (id : (κ → β) → κ → β) := by
        funext target column
        exact if_neg List.not_mem_nil
      rw [same, Option.map_id_apply]
      rfl
    · -- there is no record at all, so every target is absent
      refine Or.inl ⟨none, fun target => ?_⟩
      cases target with
      | none => rfl
      | some row => exact absurd ⟨row⟩ some
  | cons change changes ih =>
    rcases ih with ⟨result, forgets⟩ | ⟨columns, row, patches⟩
    · exact Or.inl ⟨result, fun target => forgets (change.apply target)⟩
    · cases change with
      | put first =>
        exact Or.inl ⟨some (overlay first row columns), fun target => patches (some first)⟩
      | remove => exact Or.inl ⟨none, fun target => patches none⟩
      | patch columns' first =>
        refine Or.inr ⟨columns' ++ columns, overlay first row columns, fun target => ?_⟩
        have step := patches (target.map (overlay · first columns'))
        rw [Option.map_map] at step
        refine step.trans (congrArg (target.map ·) ?_)
        funext target
        exact overlay_overlay target first row columns' columns

theorem replay_replay (changes : List (Change κ β)) (target : Option (κ → β)) :
    replay changes (replay changes target) = replay changes target := by
  rcases replay_cases changes with ⟨result, forgets⟩ | ⟨columns, row, patches⟩
  · rw [forgets, forgets]
  · rw [patches, patches, Option.map_map]
    refine congrArg (target.map ·) ?_
    funext target
    exact overlay_self target row columns

/-- A record read in the middle of its history, and then a replay that starts at or
before that point, ends where the history ends. -/
theorem replay_overlap (before overlap after : List (Change κ β)) (target : Option (κ → β)) :
    replay (overlap ++ after) (replay (before ++ overlap) target) =
      replay (before ++ overlap ++ after) target := by
  rw [replay_append overlap, replay_append before, replay_replay, replay_append (before ++ overlap),
    replay_append before]

section Logs

variable {K : Type} [DecidableEq K] {key : K}

/-- The changes a log makes under one key. -/
def atKey (key : K) (log : List (K × Change κ β)) : List (Change κ β) :=
  (log.filter (·.1 = key)).map (·.2)

omit [DecidableEq κ] in
theorem atKey_append (log later : List (K × Change κ β)) :
    atKey key (log ++ later) = atKey key log ++ atKey key later := by
  unfold atKey
  rw [List.filter_append, List.map_append]

omit [DecidableEq κ] in
theorem atKey_of_absent {log : List (K × Change κ β)} (absent : ∀ entry ∈ log, entry.1 ≠ key) :
    atKey key log = [] := by
  unfold atKey
  rw [List.map_eq_nil_iff, List.filter_eq_nil_iff]
  intro entry mem here
  exact absent entry mem (of_decide_eq_true here)

omit [DecidableEq κ] in
theorem atKey_of_mem {log : List (K × Change κ β)} (distinct : log.Pairwise (·.1 ≠ ·.1))
    {change : Change κ β} (mem : (key, change) ∈ log) : atKey key log = [change] := by
  obtain ⟨before, after, rfl⟩ := List.append_of_mem mem
  obtain ⟨_, tail, across⟩ := List.pairwise_append.mp distinct
  have early : atKey key before = [] :=
    atKey_of_absent fun entry mem => across entry mem _ List.mem_cons_self
  have late : atKey key after = [] :=
    atKey_of_absent fun entry mem => ((List.pairwise_cons.mp tail).1 entry mem).symm
  rw [List.append_cons, atKey_append, atKey_append, early, late]
  simp [atKey]

/-- A record read after `readAt` entries of the log, and then a replay of the log from
`start` on, ends where the log ends, if the replay misses no later change of it. -/
theorem replay_from (log : List (K × Change κ β)) {readAt start : Nat}
    (late : ∀ i entry, log[i]? = some entry → entry.1 = key → readAt ≤ i → start ≤ i)
    (target : Option (κ → β)) :
    replay (atKey key (log.drop start)) (replay (atKey key (log.take readAt)) target) =
      replay (atKey key log) target := by
  let overlap := (log.drop start).take (readAt - start)
  have rest : log.drop start = overlap ++ (log.drop start).drop (readAt - start) :=
    (List.take_append_drop _ _).symm
  have seen : log.take (readAt + (start - readAt)) = log.take start ++ overlap := by
    rw [← List.take_add]
    congr 1
    omega
  -- between the reading and a replay that starts later nothing happens to the record
  have quiet : atKey key ((log.drop readAt).take (start - readAt)) = [] := by
    apply atKey_of_absent
    intro entry mem here
    obtain ⟨i, bound, found⟩ := List.mem_take_iff_getElem.mp mem
    have index : log[readAt + i]? = some entry := by
      rw [← List.getElem?_drop, List.getElem?_eq_getElem (by omega), found]
    have := late (readAt + i) entry index here (Nat.le_add_right _ _)
    omega
  have reading : atKey key (log.take readAt) = atKey key (log.take start ++ overlap) := by
    rw [← seen, List.take_add, atKey_append, quiet, List.append_nil]
  have whole : log = log.take start ++ overlap ++ (log.drop start).drop (readAt - start) := by
    rw [List.append_assoc, ← rest, List.take_append_drop]
  rw [reading, rest, atKey_append, atKey_append, replay_overlap, ← atKey_append, ← atKey_append,
    ← whole]

end Logs

end Transmogr.Overwrite

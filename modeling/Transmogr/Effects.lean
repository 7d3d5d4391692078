import Mathlib.Data.List.Dedup
import Transmogr.Sql

/-! Which rows one statement writes, and what it can write there. -/
namespace Transmogr.Sql

/-- A statement with the arguments of one execution. -/
abbrev Call := Statement × Args

def Statement.table : Statement → String
  | .insert table .. | .update table .. | .delete table .. | .selectNothing table => table

variable {V : Type} [DecidableEq V] (server : Server V)

/-- The keys of the rows a statement inserts, updates or deletes; an update that sets
what is there already writes the row too. -/
def touchedKeys (statement : Statement) (args : Args) (tables : Tables V) :
    Except String (List (List V)) :=
  let matched (table : String) (key : List String) (allowed : Row V → Bool) := do
    let sources ← args.payloads.mapM (populateRecord server table)
    return (sources.filterMap (keyValues key)).dedup.filter fun values =>
      (tables table values).any allowed
  match statement with
  | .insert table columns key action => do
    let sources ← args.payloads.mapM (populateRecord server table)
    let final ← sources.foldlM (insertRow server table columns key action) ⟨tables table, []⟩
    return final.touched
  | .update table _ key region => matched table key (regionIs server region args.texts.head?)
  | .delete table key region => matched table key (regionIsOrNull server region args.texts.head?)
  | .selectNothing _ => .ok []

/-- What a statement can leave in place of the row of a key. -/
inductive Effect (before : TableRows V) (key : List V) : Call → Option (Row V) → Prop
  | insert {table : String} {columns primaryKey : List String} {action : ConflictAction}
      {args : Args} {payload : Option Object} {source : Row V}
      (known : ∀ column ∈ columns, column ∈ server.columns table) (sent : payload ∈ args.payloads)
      (read : populateRecord server table payload = .ok source)
      (keyed : keyValues primaryKey (insertedRow server table columns source) = some key)
      (absent : before key = none) :
      Effect before key (.insert table columns primaryKey action, args)
        (some (insertedRow server table columns source))
  | overwrite {table : String} {columns primaryKey assignments : List String}
      {owner : Option String} {args : Args} {payload : Option Object} {source target : Row V}
      (known : ∀ column ∈ columns, column ∈ server.columns table) (sent : payload ∈ args.payloads)
      (read : populateRecord server table payload = .ok source)
      (keyed : keyValues primaryKey (insertedRow server table columns source) = some key)
      (present : before key = some target)
      (allowed : ownerAllows owner target (insertedRow server table columns source) = true) :
      Effect before key (.insert table columns primaryKey (.doUpdate assignments owner), args)
        (some (assign target (insertedRow server table columns source) assignments))
  | update {table : String} {assignments primaryKey : List String} {region : Option String}
      {args : Args} {payload : Option Object} {source target : Row V}
      (sent : payload ∈ args.payloads) (read : populateRecord server table payload = .ok source)
      (keyed : keyValues primaryKey source = some key) (present : before key = some target)
      (allowed : regionIs server region args.texts.head? target = true) :
      Effect before key (.update table assignments primaryKey region, args)
        (some (assign target source assignments))
  | delete {table : String} {primaryKey : List String} {region : Option String} {args : Args}
      {payload : Option Object} {source target : Row V} (sent : payload ∈ args.payloads)
      (read : populateRecord server table payload = .ok source)
      (keyed : keyValues primaryKey source = some key) (present : before key = some target)
      (allowed : regionIsOrNull server region args.texts.head? target = true) :
      Effect before key (.delete table primaryKey region, args) none

/-- The touched keys account for everything a statement does. -/
structure Accounts (call : Call) (before after : Tables V) (touched : List (List V)) : Prop where
  elsewhere : ∀ table, table ≠ call.1.table → after table = before table
  untouched : ∀ key, key ∉ touched → after call.1.table key = before call.1.table key
  effect : ∀ key ∈ touched, Effect server (before call.1.table) key call (after call.1.table key)

/-- The loop of an insert: what is touched has its final row, the rest is as before. -/
structure InsertInv (call : Call) (before : TableRows V) (state : InsertState V) : Prop where
  untouched : ∀ key, key ∉ state.touched → state.rows key = before key
  effect : ∀ key ∈ state.touched, Effect server before key call (state.rows key)

variable {server}

/-- A row is written under a key the statement has not touched yet. -/
theorem InsertInv.write {call : Call} {before : TableRows V} {state : InsertState V}
    {values : List V} {row : Row V} (inv : InsertInv server call before state)
    (written : Effect server before values call (some row)) :
    InsertInv server call before ⟨setRow state.rows values (some row), values :: state.touched⟩ := by
  constructor
  · intro key outside
    obtain ⟨differs, older⟩ := not_or.mp (mt List.mem_cons.mpr outside)
    simp [setRow, differs, inv.untouched key older]
  · intro key mem
    by_cases same : key = values
    · subst same
      simpa [setRow] using written
    · have older := (List.mem_cons.mp mem).resolve_left same
      simpa [setRow, same] using inv.effect key older

section Insert

variable {table : String} {columns primaryKey : List String} {action : ConflictAction} {args : Args}

theorem insertRow_inv {before : TableRows V} {state next : InsertState V}
    {payload : Option Object} {source : Row V}
    (known : ∀ column ∈ columns, column ∈ server.columns table) (sent : payload ∈ args.payloads)
    (read : populateRecord server table payload = .ok source)
    (inv : InsertInv server (.insert table columns primaryKey action, args) before state)
    (ran : insertRow server table columns primaryKey action state source = .ok next) :
    InsertInv server (.insert table columns primaryKey action, args) before next := by
  simp only [insertRow] at ran
  split at ran
  · cases ran
  · next values keyed =>
    split at ran
    · next absent =>
      cases ran
      have fresh : values ∉ state.touched := by
        -- no effect of an insert leaves a key without a row
        intro old
        have written := inv.effect values old
        rw [absent] at written
        cases written
      refine inv.write (.insert known sent read keyed ?_)
      rw [← inv.untouched values fresh, absent]
    · next target present =>
      cases action with
      | doNothing =>
        cases ran
        exact inv
      | doUpdate assignments owner =>
        simp only at ran
        split at ran
        · cases ran
        · next fresh =>
          split at ran
          · next allowed =>
            cases ran
            refine inv.write (.overwrite known sent read keyed ?_ allowed)
            rw [← inv.untouched values fresh, present]
          · cases ran
            exact inv

theorem foldlM_insertRow_inv {before : TableRows V} {state final : InsertState V}
    {sources : List (Row V)} (known : ∀ column ∈ columns, column ∈ server.columns table)
    (read : ∀ source ∈ sources, ∃ payload ∈ args.payloads,
      populateRecord server table payload = .ok source)
    (inv : InsertInv server (.insert table columns primaryKey action, args) before state)
    (ran : sources.foldlM (insertRow server table columns primaryKey action) state = .ok final) :
    InsertInv server (.insert table columns primaryKey action, args) before final := by
  refine Fallible.foldlM_rel (R := fun a b =>
    InsertInv server (.insert table columns primaryKey action, args) before a →
      InsertInv server (.insert table columns primaryKey action, args) before b)
    (fun _ => id) (fun first second => second ∘ first) ?_ ran inv
  intro source mem a b stepped inv
  obtain ⟨payload, sent, populated⟩ := read source mem
  exact insertRow_inv known sent populated inv stepped

/-- An insert leaves a row under the key of every source, and none without one. -/
theorem insertRow_present {state next : InsertState V} {source : Row V}
    (ran : insertRow server table columns primaryKey action state source = .ok next) :
    (∀ key, (state.rows key).isSome → (next.rows key).isSome) ∧
      ∃ values, keyValues primaryKey (insertedRow server table columns source) = some values ∧
        (next.rows values).isSome := by
  simp only [insertRow] at ran
  split at ran
  · cases ran
  · next values keyed =>
    have written : ∀ row key, (state.rows key).isSome →
        (setRow state.rows values (some row) key).isSome := fun row key present => by
      by_cases same : key = values <;> simp [setRow, same, present]
    split at ran
    · cases ran
      exact ⟨written _, values, keyed, by simp [setRow]⟩
    · next target present =>
      have stays : (state.rows values).isSome := by simp [present]
      cases action with
      | doNothing =>
        cases ran
        exact ⟨fun _ => id, values, keyed, stays⟩
      | doUpdate assignments owner =>
        simp only at ran
        split at ran
        · cases ran
        · split at ran
          · cases ran
            exact ⟨written _, values, keyed, by simp [setRow]⟩
          · cases ran
            exact ⟨fun _ => id, values, keyed, stays⟩

theorem foldlM_insertRow_present {state final : InsertState V} {sources : List (Row V)}
    (ran : sources.foldlM (insertRow server table columns primaryKey action) state = .ok final) :
    (∀ key, (state.rows key).isSome → (final.rows key).isSome) ∧
      ∀ source ∈ sources, ∃ values,
        keyValues primaryKey (insertedRow server table columns source) = some values ∧
          (final.rows values).isSome := by
  induction sources generalizing state with
  | nil =>
    cases ran
    exact ⟨fun _ => id, fun _ mem => (nomatch mem)⟩
  | cons source sources ih =>
    obtain ⟨next, first, rest⟩ := Fallible.bind_eq_ok.mp ran
    obtain ⟨kept, values, keyed, present⟩ := insertRow_present first
    obtain ⟨keptLater, others⟩ := ih rest
    refine ⟨fun key has => keptLater key (kept key has), List.forall_mem_cons.mpr ⟨?_, others⟩⟩
    exact ⟨values, keyed, keptLater values present⟩

end Insert

/-- The rows an update or a delete writes are the allowed ones that a source names. -/
theorem mem_matched {rows : TableRows V} {sources : List (Row V)} {key : List String}
    {allowed : Row V → Bool} {values : List V} :
    values ∈ ((sources.filterMap (keyValues key)).dedup.filter fun values =>
        (rows values).any allowed) ↔
      (∃ source ∈ sources, keyValues key source = some values) ∧
        ∃ target, rows values = some target ∧ allowed target = true := by
  simp only [List.mem_filter, List.mem_dedup, List.mem_filterMap, Option.any_eq_true]

theorem updateRows_matched {rows : TableRows V} {sources : List (Row V)} {key : List String}
    {assignments : List String} {allowed : Row V → Bool} {values : List V} {target : Row V}
    (present : rows values = some target) (pass : allowed target = true)
    (named : ∃ source ∈ sources, keyValues key source = some values) :
    ∃ source ∈ sources, keyValues key source = some values ∧
      updateRows key assignments allowed sources rows values =
        some (assign target source assignments) := by
  cases found : sources.find? fun source => keyValues key source == some values with
  | none =>
    obtain ⟨source, mem, keyed⟩ := named
    exact absurd keyed (by simpa using List.find?_eq_none.mp found source mem)
  | some source =>
    refine ⟨source, List.mem_of_find?_eq_some found, by simpa using List.find?_some found, ?_⟩
    simp [updateRows, present, pass, found]

theorem updateRows_unmatched {rows : TableRows V} {sources : List (Row V)} {key : List String}
    {assignments : List String} {allowed : Row V → Bool} {values : List V}
    (unmatched : ¬((∃ source ∈ sources, keyValues key source = some values) ∧
      ∃ target, rows values = some target ∧ allowed target = true)) :
    updateRows key assignments allowed sources rows values = rows values := by
  cases present : rows values with
  | none => simp [updateRows, present]
  | some target =>
    by_cases pass : allowed target = true
    · have none : (sources.find? fun source => keyValues key source == some values) = none := by
        rw [List.find?_eq_none]
        intro source mem keyed
        exact unmatched ⟨⟨source, mem, by simpa using keyed⟩, target, present, pass⟩
      simp [updateRows, present, none]
    · simp [updateRows, present, pass]

theorem deleteRows_matched {rows : TableRows V} {sources : List (Row V)} {key : List String}
    {allowed : Row V → Bool} {values : List V} {target : Row V}
    (present : rows values = some target) (pass : allowed target = true)
    (named : ∃ source ∈ sources, keyValues key source = some values) :
    deleteRows key allowed sources rows values = none := by
  simpa [deleteRows, present, pass] using named

theorem deleteRows_unmatched {rows : TableRows V} {sources : List (Row V)} {key : List String}
    {allowed : Row V → Bool} {values : List V}
    (unmatched : ¬((∃ source ∈ sources, keyValues key source = some values) ∧
      ∃ target, rows values = some target ∧ allowed target = true)) :
    deleteRows key allowed sources rows values = rows values := by
  cases present : rows values with
  | none => simp [deleteRows, present]
  | some target =>
    simp only [deleteRows, present, Option.filter_some, ite_eq_left_iff]
    intro hit
    simp only [Bool.not_eq_true, Bool.not_eq_false', Bool.and_eq_true, List.any_eq_true,
      beq_iff_eq] at hit
    exact absurd ⟨hit.2, target, present, hit.1⟩ unmatched

theorem Accounts.of_rows {call : Call} {tables : Tables V} {rows : TableRows V}
    {touched : List (List V)}
    (untouched : ∀ key, key ∉ touched → rows key = tables call.1.table key)
    (effect : ∀ key ∈ touched, Effect server (tables call.1.table) key call (rows key)) :
    Accounts server call tables (setTable tables call.1.table rows) touched := by
  constructor
  · intro table differs
    simp [setTable, differs]
  · simpa [setTable] using untouched
  · simpa [setTable] using effect

theorem exec_insert_present {table : String} {columns primaryKey : List String}
    {action : ConflictAction} {args : Args} {tables next : Tables V} {payload : Option Object}
    (ran : exec server (.insert table columns primaryKey action) args tables = .ok next)
    (sent : payload ∈ args.payloads) :
    ∃ source values, populateRecord server table payload = .ok source ∧
      keyValues primaryKey (insertedRow server table columns source) = some values ∧
      (next table values).isSome := by
  obtain ⟨-, -, sources, read, final, folded, rfl⟩ := exec_insert_eq_ok.mp ran
  obtain ⟨source, mem, populated⟩ := Fallible.exists_mem_of_mapM read sent
  obtain ⟨values, keyed, present⟩ := (foldlM_insertRow_present folded).2 source mem
  exact ⟨source, values, populated, keyed, by simpa [setTable] using present⟩

theorem exec_accounts {call : Call} {tables next : Tables V}
    (ran : exec server call.1 call.2 tables = .ok next) :
    ∃ touched, touchedKeys server call.1 call.2 tables = .ok touched ∧
      Accounts server call tables next touched := by
  obtain ⟨statement, args⟩ := call
  cases statement with
  | selectNothing table =>
    simp only [exec] at ran
    split at ran
    · cases ran
    · cases ran
      exact ⟨[], rfl, ⟨fun _ _ => rfl, fun _ _ => rfl, fun _ mem => (nomatch mem)⟩⟩
  | insert table columns key action =>
    obtain ⟨-, known, sources, read, final, folded, rfl⟩ := exec_insert_eq_ok.mp ran
    have start : InsertInv server (.insert table columns key action, args) (tables table)
        ⟨tables table, []⟩ := ⟨fun _ _ => rfl, nofun⟩
    have inv := foldlM_insertRow_inv known (fun source mem => Fallible.mem_of_mapM read mem) start
      folded
    refine ⟨final.touched, ?_, .of_rows inv.untouched inv.effect⟩
    exact Fallible.bind_eq_ok.mpr ⟨sources, read, Fallible.bind_eq_ok.mpr ⟨final, folded, rfl⟩⟩
  | update table assignments key region =>
    obtain ⟨-, -, sources, read, rfl⟩ := exec_update_eq_ok.mp ran
    refine ⟨_, Fallible.bind_eq_ok.mpr ⟨sources, read, rfl⟩, .of_rows ?_ ?_⟩
    · intro values outside
      exact updateRows_unmatched (mt mem_matched.mpr outside)
    · intro values mem
      obtain ⟨named, target, present, pass⟩ := mem_matched.mp mem
      obtain ⟨source, inside, keyed, became⟩ :=
        @updateRows_matched V _ _ _ _ assignments _ _ _ present pass named
      obtain ⟨payload, sent, populated⟩ := Fallible.mem_of_mapM read inside
      rw [became]
      exact .update sent populated keyed present pass
  | delete table key region =>
    obtain ⟨-, -, sources, read, rfl⟩ := exec_delete_eq_ok.mp ran
    refine ⟨_, Fallible.bind_eq_ok.mpr ⟨sources, read, rfl⟩, .of_rows ?_ ?_⟩
    · intro values outside
      exact deleteRows_unmatched (mt mem_matched.mpr outside)
    · intro values mem
      obtain ⟨named, target, present, pass⟩ := mem_matched.mp mem
      obtain ⟨source, inside, keyed⟩ := named
      obtain ⟨payload, sent, populated⟩ := Fallible.mem_of_mapM read inside
      rw [deleteRows_matched present pass ⟨source, inside, keyed⟩]
      exact .delete sent populated keyed present pass

end Transmogr.Sql

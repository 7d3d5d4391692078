import Transmogr.Statements
import Transmogr.UpdateDiff

/-! The numbered parameters of the row statements, and the arguments they are run with. -/
namespace Transmogr

open Sql

/-- A condition of a WHERE clause; `$n` stands as its number. -/
inductive Condition where
  /-- `t.column = $n` -/
  | regionIs (column : String) (parameter : Nat)
  /-- The version expression `> $n` -/
  | versionAfter (parameter : Nat)
  /-- The version expression `= $n` -/
  | versionIs (parameter : Nat)
  /-- `(t.key) > (cursor.key)` -/
  | keyAfter (key : List String)
  | and (left right : Condition)
  | or (left right : Condition)
  deriving DecidableEq, Repr

/-- `SELECT … FROM table AS t [, json_populate_record(NULL::table, $n::json) AS cursor]
[WHERE conditions] ORDER BY [version,] key LIMIT $n` -/
structure Query where
  tableRef : String
  /-- The column of the version expression, if rows have versions. -/
  version : Option String
  cursor : Option Nat
  conditions : List Condition
  orderBy : List String
  limit : Nat
  deriving DecidableEq, Repr

inductive Argument where
  | json (payload : Option Object)
  | text (value : String)
  | number (value : Int)

/-- What `ReadSnapshotChunk` reads of a request. -/
structure SnapshotReadRequest where
  localRegion : String
  table : String
  afterPrimaryKey : PrimaryKey
  limit : Int

/-- The query and the arguments of `ReadSnapshotChunk`: each argument is numbered as it is added. -/
def readSnapshotQuery (spec : TableSpec) (tableRef : String) (req : SnapshotReadRequest) :
    Query × List Argument :=
  let resumes := !req.afterPrimaryKey.isEmpty
  let args : List Argument := []
  let args := if resumes then args ++ [.json (primaryKeyPayload req.afterPrimaryKey)] else args
  let cursor := if resumes then some args.length else none
  let filters : Bool := spec.regionField ≠ "" && req.localRegion ≠ ""
  let args := if filters then args ++ [.text req.localRegion] else args
  let whereParts := if filters then [.regionIs spec.regionField args.length] else []
  let whereParts := if resumes then whereParts ++ [.keyAfter spec.primaryKey] else whereParts
  let args := args ++ [.number req.limit]
  (⟨tableRef, none, cursor, whereParts, spec.primaryKey, args.length⟩, args)

def readSnapshotChunkQuery (repo : Repository) (req : SnapshotReadRequest) :
    Except String (Query × List Argument) := do
  let (spec, tableRef) ← tableSpec repo req.table
  return readSnapshotQuery spec tableRef req

def defaultPollBatchSize : Int := 1000

/-- The four queries of `ChangefeedPollingListTableChanges`, with their numbers as the source
writes them. -/
def pollingQuery (spec : TableSpec) (tableRef localRegion : String) (afterVersion : Int)
    (afterPrimaryKey : PrimaryKey) : Query × List Argument :=
  let query (cursor : Option Nat) (conditions : List Condition) (limit : Nat) : Query :=
    ⟨tableRef, some spec.updatedAtField, cursor, conditions, spec.primaryKey, limit⟩
  let later : Condition :=
    .or (.versionAfter 1) (.and (.versionIs 1) (.keyAfter spec.primaryKey))
  let primaryKeyJSON := primaryKeyPayload afterPrimaryKey
  if spec.regionField ≠ "" then
    if primaryKeyJSON.isSome then
      (query (some 2) [.regionIs spec.regionField 3, later] 4,
        [.number afterVersion, .json primaryKeyJSON, .text localRegion, .number defaultPollBatchSize])
    else
      (query none [.regionIs spec.regionField 2, .versionAfter 1] 3,
        [.number afterVersion, .text localRegion, .number defaultPollBatchSize])
  else
    if primaryKeyJSON.isSome then
      (query (some 2) [later] 3,
        [.number afterVersion, .json primaryKeyJSON, .number defaultPollBatchSize])
    else
      (query none [.versionAfter 1] 2, [.number afterVersion, .number defaultPollBatchSize])

def pollingTableQuery (spec : TableSpec) (localRegion : String) (afterVersion : Int)
    (afterPrimaryKey : PrimaryKey) : Except String (Query × List Argument) := do
  let tableRef ← quoteTableName spec.name
  return pollingQuery spec tableRef localRegion afterVersion afterPrimaryKey

/-- What decides whether a statement fits its arguments, whatever the statement does. -/
structure Shape where
  /-- The numbers of the parameters as they occur. -/
  parameters : List Nat
  arguments : Nat
  /-- The lists of columns that the text joins with commas. -/
  columnLists : List (List String)
  /-- The columns in conditions. -/
  conditionColumns : List String
  /-- Whether the rows compared with `cursor` come with one. -/
  cursorBound : Bool

/-- The parameters are `$1` to `$n` for `n` arguments, no list is empty or names a column twice, and
every column is one of `columns`. -/
structure Shape.Fits (shape : Shape) (columns : String → Prop) : Prop where
  parameters : ∀ n, n ∈ shape.parameters ↔ 1 ≤ n ∧ n ≤ shape.arguments
  lists : ∀ list ∈ shape.columnLists, list ≠ [] ∧ list.Nodup ∧ ∀ column ∈ list, columns column
  compared : ∀ column ∈ shape.conditionColumns, columns column
  cursorBound : shape.cursorBound = true

def Condition.parameters : Condition → List Nat
  | .regionIs _ parameter | .versionAfter parameter | .versionIs parameter => [parameter]
  | .keyAfter _ => []
  | .and left right | .or left right => left.parameters ++ right.parameters

def Condition.keyLists : Condition → List (List String)
  | .regionIs _ _ | .versionAfter _ | .versionIs _ => []
  | .keyAfter key => [key]
  | .and left right | .or left right => left.keyLists ++ right.keyLists

def Condition.columns : Condition → List String
  | .regionIs column _ => [column]
  | .versionAfter _ | .versionIs _ | .keyAfter _ => []
  | .and left right | .or left right => left.columns ++ right.columns

def Query.shape (query : Query) (args : List Argument) : Shape where
  parameters := query.cursor.toList ++ query.conditions.flatMap Condition.parameters ++ [query.limit]
  arguments := args.length
  columnLists := query.conditions.flatMap Condition.keyLists ++ [query.orderBy]
  conditionColumns := query.version.toList ++ query.conditions.flatMap Condition.columns
  cursorBound := query.cursor.isSome || (query.conditions.flatMap Condition.keyLists).isEmpty

namespace Sql

/-- The parameters of a row statement: the JSON array, then the region. -/
def Statement.parameters : Statement → List Nat
  | .insert .. => [1]
  | .update _ _ _ region | .delete _ _ region => 1 :: region.toList.map fun _ => 2
  | .selectNothing _ => []

def Statement.columnLists : Statement → List (List String)
  | .insert _ columns key .doNothing => [columns, key]
  | .insert _ columns key (.doUpdate assignments _) => [columns, key, assignments]
  | .update _ assignments key _ => [assignments, key]
  | .delete _ key _ => [key]
  | .selectNothing _ => []

def Statement.conditionColumns : Statement → List String
  | .insert _ _ _ (.doUpdate _ owner) => owner.toList
  | .update _ _ _ region | .delete _ _ region => region.toList
  | .insert _ _ _ .doNothing | .selectNothing _ => []

end Sql

def callShape (call : Call) : Shape where
  parameters := call.1.parameters
  arguments := call.2.count
  columnLists := call.1.columnLists
  conditionColumns := call.1.conditionColumns
  cursorBound := true

/-- The columns of the payloads, and the region field if the table has one. -/
def CallColumn (spec : TableSpec) (call : Call) (column : String) : Prop :=
  (∃ data, some data ∈ call.2.payloads ∧ column ∈ data) ∨
    (column = spec.regionField ∧ spec.regionField ≠ "")

/-- A read compares key columns, the region field and the version column. -/
def QueryColumn (spec : TableSpec) (column : String) : Prop :=
  column ∈ spec.primaryKey ∨ column = spec.updatedAtField ∨
    (column = spec.regionField ∧ spec.regionField ≠ "")

section Reads

variable {spec : TableSpec} {tableRef : String} (keyed : spec.primaryKey ≠ [])
  (nodup : spec.primaryKey.Nodup)

include keyed nodup

/-- A query that lists nothing but the key. -/
theorem Query.fits_of {query : Query} {args : List Argument}
    (parameters : ∀ n, n ∈ (query.shape args).parameters ↔ 1 ≤ n ∧ n ≤ args.length)
    (keys : ∀ list ∈ (query.shape args).columnLists, list = spec.primaryKey)
    (compared : ∀ column ∈ (query.shape args).conditionColumns, QueryColumn spec column)
    (cursorBound : (query.shape args).cursorBound = true) :
    (query.shape args).Fits (QueryColumn spec) := by
  refine ⟨parameters, ?_, compared, cursorBound⟩
  intro list mem
  rw [keys list mem]
  exact ⟨keyed, nodup, fun _ => .inl⟩

theorem readSnapshotQuery_fits (req : SnapshotReadRequest) :
    ((readSnapshotQuery spec tableRef req).1.shape (readSnapshotQuery spec tableRef req).2).Fits
      (QueryColumn spec) := by
  by_cases resumes : req.afterPrimaryKey.isEmpty = true <;>
    by_cases filters : spec.regionField ≠ "" ∧ req.localRegion ≠ ""
  all_goals
    apply Query.fits_of keyed nodup <;>
      simp [readSnapshotQuery, Query.shape, resumes, filters, Condition.parameters,
        Condition.keyLists, Condition.columns, QueryColumn]
    try omega

theorem pollingQuery_fits (localRegion : String) (afterVersion : Int) (afterPrimaryKey : PrimaryKey) :
    ((pollingQuery spec tableRef localRegion afterVersion afterPrimaryKey).1.shape
      (pollingQuery spec tableRef localRegion afterVersion afterPrimaryKey).2).Fits
        (QueryColumn spec) := by
  by_cases region : spec.regionField = "" <;>
    by_cases resumes : (primaryKeyPayload afterPrimaryKey).isSome = true
  all_goals
    apply Query.fits_of keyed nodup <;>
      simp [pollingQuery, Query.shape, region, resumes, Condition.parameters, Condition.keyLists,
        Condition.columns, QueryColumn]
    try omega

end Reads

/-! ## The writes -/

/-- The event names the key columns of its table: a delete in its key, any other in its fields. -/
def ReplicationEvent.NamesKey (spec : TableSpec) (event : ReplicationEvent) : Prop :=
  ∀ column ∈ spec.primaryKey,
    if event.operation = .delete then column ∈ event.primaryKey.map (·.column)
    else column ∈ event.fields

/-- An update has a column to set. -/
def ReplicationEvent.SetsColumn (spec : TableSpec) (event : ReplicationEvent) : Prop :=
  event.operation = .update → ∃ column ∈ event.fields.keys, column ∉ spec.primaryKey

instance (spec : TableSpec) (event : ReplicationEvent) : Decidable (event.NamesKey spec) :=
  inferInstanceAs (Decidable (∀ column ∈ spec.primaryKey, _))

instance (spec : TableSpec) (event : ReplicationEvent) : Decidable (event.SetsColumn spec) :=
  inferInstanceAs (Decidable (event.operation = .update → _))

/-- A statement on one of the configured tables that fits its arguments; `exec` counts them. -/
def CallFits (repo : Repository) (call : Call) : Prop :=
  ∃ table spec tableRef, tableSpec repo table = .ok (spec, tableRef) ∧ call.1.table = tableRef ∧
    call.2.count = call.1.placeholders ∧ (callShape call).Fits (CallColumn spec call)

theorem flatten_fits {α : Type} {repo : Repository} {xs : List α} {Q : α → Prop}
    {calls : α → Except String (List Call)}
    (each : ∀ x ∈ xs, ∃ made, calls x = .ok made ∧ ((∀ call ∈ made, CallFits repo call) ↔ Q x)) :
    ∃ made, (xs.mapM calls).map List.flatten = .ok made ∧
      ((∀ call ∈ made, CallFits repo call) ↔ ∀ x ∈ xs, Q x) := by
  obtain ⟨lists, mapped, -⟩ := Fallible.mapM_forall₂ each
  have made : (xs.mapM calls).map List.flatten = .ok lists.flatten := by
    rw [mapped]
    rfl
  refine ⟨lists.flatten, made, fun fits x inside => ?_, fun holds call mem => ?_⟩
  · obtain ⟨list, own, fit⟩ := each x inside
    obtain ⟨_, same, within⟩ := Fallible.subset_of_mapM_flatten made inside
    cases own.symm.trans same
    exact fit.mp fun call mem => fits call (within mem)
  · obtain ⟨x, inside, list, found, inList⟩ := Fallible.mem_of_mapM_flatten made mem
    obtain ⟨_, same, fit⟩ := each x inside
    cases found.symm.trans same
    exact fit.mpr (holds x inside) call inList

section Writes

variable {repo : Repository} {table region : String} {spec : TableSpec} {tableRef : String}
  (found : tableSpec repo table = .ok (spec, tableRef)) (keyed : spec.primaryKey ≠ [])
  (nodup : spec.primaryKey.Nodup)

theorem mem_ownerRegionCondition {column : String} (mem : column ∈ (ownerRegionCondition spec).toList) :
    column = spec.regionField ∧ spec.regionField ≠ "" := by
  unfold ownerRegionCondition at mem
  split at mem
  · cases mem
  · next named => exact ⟨List.mem_singleton.mp mem, named⟩

/-- The JSON array and the region are the arguments of an update or a delete. -/
theorem region_parameters {column : Option String} {texts : List String}
    (same : texts.length = column.toList.length) (n : Nat) :
    n ∈ 1 :: column.toList.map (fun _ => 2) ↔ 1 ≤ n ∧ n ≤ 1 + texts.length := by
  rw [same]
  cases column <;> simp <;> omega

include found keyed nodup

/-- An insert whose columns are those of one of its payloads. -/
theorem upsert_fits {sample : Option Object} {payloads : List (Option Object)} {allowUpdate : Bool}
    {query : Statement} (sent : sample ∈ payloads)
    (built : buildBatchUpsertQuery spec tableRef sample allowUpdate = .ok query) :
    CallFits repo (query, ⟨payloads, []⟩) := by
  obtain ⟨data, rfl, named, rfl⟩ := buildBatchUpsertQuery_eq_ok.mp built
  obtain ⟨first, inKey⟩ := List.exists_mem_of_ne_nil _ keyed
  have distinct : data.keys.Nodup := Std.ExtTreeMap.nodup_keys
  have carried (action : ConflictAction) : ∀ column ∈ data.keys, CallColumn spec
      (.insert tableRef data.keys spec.primaryKey action, ⟨payloads, []⟩) column :=
    fun column mem => .inl ⟨data, sent, Std.ExtTreeMap.mem_keys.mp mem⟩
  have columns := List.ne_nil_of_mem (named first inKey)
  have one : ∀ n, n ∈ [1] ↔ 1 ≤ n ∧ n ≤ 1 := by
    simp
    omega
  refine ⟨table, spec, tableRef, found, rfl, rfl, ?_⟩
  rcases conflictAction_cases spec data.keys allowUpdate with ⟨never, -⟩ | ⟨-, more, always⟩
  · rw [never]
    refine ⟨one, ?_, nofun, rfl⟩
    simp only [callShape, Statement.columnLists, List.forall_mem_cons]
    exact ⟨⟨columns, distinct, carried _⟩, ⟨keyed, nodup, fun c mem => carried _ c (named c mem)⟩, nofun⟩
  · rw [always]
    refine ⟨one, ?_, fun column mem => .inr (mem_ownerRegionCondition mem), rfl⟩
    simp only [callShape, Statement.columnLists, List.forall_mem_cons]
    exact ⟨⟨columns, distinct, carried _⟩, ⟨keyed, nodup, fun c mem => carried _ c (named c mem)⟩,
      ⟨more, distinct.filter _, fun c mem => carried _ c (List.mem_of_mem_filter mem)⟩, nofun⟩

theorem update_fits {data : Object} {payloads : List (Option Object)} {texts : List String}
    (sent : some data ∈ payloads) (more : UpdateDiff.updateColumns spec data ≠ [])
    (named : ∀ column ∈ spec.primaryKey, column ∈ data)
    (counted : texts.length = (ownerRegionCondition spec).toList.length) :
    CallFits repo (.update tableRef (UpdateDiff.updateColumns spec data) spec.primaryKey
      (ownerRegionCondition spec), ⟨payloads, texts⟩) := by
  refine ⟨table, spec, tableRef, found, rfl, congrArg (1 + ·) counted, region_parameters counted, ?_, ?_,
    rfl⟩
  · simp only [callShape, Statement.columnLists, List.forall_mem_cons]
    refine ⟨⟨more, ?_, ?_⟩, ⟨keyed, nodup, ?_⟩, nofun⟩
    · exact Std.ExtTreeMap.nodup_keys.filter _
    · intro column mem
      exact .inl ⟨data, sent, Std.ExtTreeMap.mem_keys.mp (List.mem_filter.mp mem).1⟩
    · exact fun column mem => .inl ⟨data, sent, named column mem⟩
  · exact fun column mem => .inr (mem_ownerRegionCondition mem)

theorem delete_fits {payloads : List (Option Object)} {texts : List String}
    (named : ∀ column ∈ spec.primaryKey, ∃ data, some data ∈ payloads ∧ column ∈ data)
    (counted : texts.length = (ownerRegionCondition spec).toList.length) :
    CallFits repo (buildBatchDeleteQuery spec tableRef, ⟨payloads, texts⟩) := by
  refine ⟨table, spec, tableRef, found, rfl, congrArg (1 + ·) counted, region_parameters counted, ?_, ?_,
    rfl⟩
  · simp only [callShape, buildBatchDeleteQuery, Statement.columnLists, List.forall_mem_cons]
    exact ⟨⟨keyed, nodup, fun column mem => .inl (named column mem)⟩, nofun⟩
  · exact fun column mem => .inr (mem_ownerRegionCondition mem)

omit found keyed nodup in
theorem primaryKeyPayload_of_mem {parts : PrimaryKey} {part : PrimaryKeyPart} (mem : part ∈ parts) :
    ∃ data, primaryKeyPayload parts = some data ∧ part.column ∈ data := by
  have filled : ¬parts.isEmpty = true := by simpa using List.ne_nil_of_mem mem
  refine ⟨_, if_neg filled, ?_⟩
  exact @Maps.mem_fill _ _ _ _ _ _ PrimaryKeyPart.column PrimaryKeyPart.value _ _ mem

omit found keyed nodup in
/-- Each name of a joined text takes its length and a comma, but for the last. -/
theorem length_intercalate_comma {names : List String} (some : names ≠ []) :
    (String.intercalate "," names).length + 1 = (names.map String.length).sum + names.length := by
  induction names with
  | nil => exact absurd rfl some
  | cons name rest ih =>
    cases rest with
    | nil => simp
    | cons next rest =>
      have comma : ",".length = 1 := by decide
      have tail := ih (List.cons_ne_nil _ _)
      rw [String.intercalate_cons_cons, String.length_append, String.length_append, comma, List.map_cons,
        List.sum_cons, List.length_cons]
      omega

variable {events : List ReplicationEvent} {mode : ReplicationApplyMode}
  (ofTable : ∀ event ∈ events, event.table = table)
  (names : ∀ event ∈ events, event.NamesKey spec)

include ofTable names

theorem upsertCall_fits (puts : ∀ event ∈ events, event.operation ≠ .delete) :
    ∃ calls, upsertCall repo mode events = .ok calls ∧ ∀ call ∈ calls, CallFits repo call := by
  cases events with
  | nil => exact ⟨[], rfl, nofun⟩
  | cons first rest =>
    obtain ⟨column, inKey⟩ := List.exists_mem_of_ne_nil _ keyed
    have built : ∀ event ∈ first :: rest, ∃ payload, buildUpsertPayload (fieldsToPayload event.fields)
        (provenanceValues spec first.peerRegion) = .ok payload ∧
          ∃ data, payload = some data ∧ ∀ column ∈ spec.primaryKey, column ∈ data.keys := by
      intro event mem
      have fields : ∀ column ∈ spec.primaryKey, column ∈ event.fields := fun column inKey => by
        simpa [puts event mem] using names event mem column inKey
      refine ⟨_, ?_, stamp spec first.peerRegion event.fields, rfl, fun column inKey => ?_⟩
      · rw [fieldsToPayload_of_mem (fields column inKey), buildUpsertPayload_stamp]
      · exact Std.ExtTreeMap.mem_keys.mpr (mem_stamp.mpr (.inl (fields column inKey)))
    obtain ⟨payloads, made, carried⟩ := Fallible.mapM_forall₂ built
    obtain ⟨payload, others, ⟨data, rfl, complete⟩, -, rfl⟩ := List.forall₂_cons_left_iff.mp carried
    obtain ⟨query, wrote⟩ : ∃ query,
        buildBatchUpsertQuery spec tableRef (some data) (mode ≠ .insertOnly) = .ok query :=
      ⟨_, buildBatchUpsertQuery_eq_ok.mpr ⟨data, rfl, complete, rfl⟩⟩
    refine ⟨[(query, ⟨some data :: others, []⟩)], ?_, List.forall_mem_singleton.mpr ?_⟩
    · apply Fallible.bind_eq_ok.mpr
      refine ⟨(spec, tableRef), (ofTable first List.mem_cons_self).symm ▸ found, ?_⟩
      exact Fallible.bind_eq_ok.mpr ⟨_, made, Fallible.bind_eq_ok.mpr ⟨query, wrote, rfl⟩⟩
    · exact upsert_fits found keyed nodup List.mem_cons_self wrote

omit found nodup ofTable names in
/-- Of two field sets whose names join to one text and that hold the key, both are the key alone or
neither is. -/
theorem setsColumn_of_joined {event other : ReplicationEvent}
    (holds : ∀ column ∈ spec.primaryKey, column ∈ event.fields.keys)
    (holdsToo : ∀ column ∈ spec.primaryKey, column ∈ other.fields.keys)
    (joined : fieldSetKey event = fieldSetKey other)
    (sets : ∃ column ∈ other.fields.keys, column ∉ spec.primaryKey) :
    ∃ column ∈ event.fields.keys, column ∉ spec.primaryKey := by
  by_contra keyOnly
  push Not at keyOnly
  obtain ⟨column, named, outside⟩ := sets
  obtain ⟨first, inKey⟩ := List.exists_mem_of_ne_nil _ keyed
  -- the key alone would be a part of the other set with a text as long
  obtain ⟨names, perm, sub⟩ := List.subperm_of_subset Std.ExtTreeMap.nodup_keys
    fun name mem => holdsToo name (keyOnly name mem)
  obtain ⟨extra, split⟩ := sub.exists_perm_append
  have whole := split.trans (perm.append_right extra)
  have texts := congrArg (fun key => key.2.length) joined
  have length := length_intercalate_comma (List.ne_nil_of_mem (holds first inKey))
  have lengthToo := length_intercalate_comma (List.ne_nil_of_mem (holdsToo first inKey))
  have sums := (whole.map String.length).sum_nat
  have counts := whole.length_eq
  simp only [fieldSetKey, List.map_append, List.sum_append_nat, List.length_append] at texts sums counts
  have none : extra = [] := List.eq_nil_of_length_eq_zero (by omega)
  rw [none, List.append_nil] at whole
  exact outside (keyOnly column (whole.subset named))

/-- The updates of one group: their statement has a column to set if and only if they all have. -/
theorem partialUpdateCall_fits (known : region ≠ "")
    (attributed : ∀ event ∈ events, event.peerRegion = region)
    (updates : ∀ event ∈ events, event.operation = .update)
    (joined : ∀ event ∈ events, ∀ other ∈ events, fieldSetKey event = fieldSetKey other) :
    ∃ calls, partialUpdateCall repo events = .ok calls ∧
      ((∀ call ∈ calls, CallFits repo call) ↔ ∀ event ∈ events, event.SetsColumn spec) := by
  have holds : ∀ event ∈ events, ∀ column ∈ spec.primaryKey, column ∈ event.fields := by
    intro event mem column inKey
    simpa [updates event mem] using names event mem column inKey
  cases events with
  | nil => exact ⟨[], rfl, by simp⟩
  | cons first rest =>
    obtain ⟨column, inKey⟩ := List.exists_mem_of_ne_nil _ keyed
    have filled := fieldsToPayload_of_mem (holds first List.mem_cons_self column inKey)
    have here : tableSpec repo first.table = .ok (spec, tableRef) := by
      rw [ofTable first List.mem_cons_self, found]
    have made {query : Statement}
        (built : buildBatchPartialUpdateQuery spec tableRef (some first.fields) = .ok query) :
        partialUpdateCall repo (first :: rest) = .ok [(query,
          ⟨(first :: rest).map fun event => fieldsToPayload event.fields,
            if spec.regionField ≠ "" ∧ first.peerRegion ≠ "" then [first.peerRegion] else []⟩)] := by
      simp only [partialUpdateCall, here, List.map_cons, List.head?_cons, Option.join_some, filled,
        bind, Except.bind, built]
      rfl
    by_cases more : UpdateDiff.updateColumns spec first.fields = []
    · refine ⟨_, made (UpdateDiff.buildBatchPartialUpdateQuery_keyOnly more), fun fits => ?_,
        fun sets => ?_⟩
      · obtain ⟨_, _, _, -, -, -, shape⟩ := fits _ List.mem_cons_self
        cases (shape.parameters 1).mpr ⟨le_rfl, Nat.le_add_right 1 _⟩
      · obtain ⟨column, named, outside⟩ :=
          sets first List.mem_cons_self (updates first List.mem_cons_self)
        exact absurd more (List.ne_nil_of_mem (List.mem_filter.mpr ⟨named, decide_eq_true outside⟩))
    · refine ⟨_, made (UpdateDiff.buildBatchPartialUpdateQuery_more more), iff_of_true
        (List.forall_mem_singleton.mpr (update_fits found keyed nodup ?_ more ?_ ?_)) ?_⟩
      · exact List.mem_map.mpr ⟨first, List.mem_cons_self, filled⟩
      · exact holds first List.mem_cons_self
      · by_cases owned : spec.regionField = "" <;>
          simp [ownerRegionCondition, owned, attributed first List.mem_cons_self, known]
      · intro event mem _
        obtain ⟨column, inUpdate⟩ := List.exists_mem_of_ne_nil _ more
        obtain ⟨named, outside⟩ := List.mem_filter.mp inUpdate
        exact setsColumn_of_joined keyed
          (fun column inKey => Std.ExtTreeMap.mem_keys.mpr (holds event mem column inKey))
          (fun column inKey =>
            Std.ExtTreeMap.mem_keys.mpr (holds first List.mem_cons_self column inKey))
          (joined event mem first List.mem_cons_self) ⟨column, named, of_decide_eq_true outside⟩

theorem deleteCall_fits (deletes : ∀ event ∈ events, event.operation = .delete) :
    ∃ calls, deleteCall repo events = .ok calls ∧ ∀ call ∈ calls, CallFits repo call := by
  cases events with
  | nil => exact ⟨[], rfl, nofun⟩
  | cons first rest =>
    have here : tableSpec repo first.table = .ok (spec, tableRef) := by
      rw [ofTable first List.mem_cons_self, found]
    refine ⟨[(buildBatchDeleteQuery spec tableRef,
        ⟨(first :: rest).map fun event => primaryKeyPayload event.primaryKey,
          if spec.regionField ≠ "" then [first.peerRegion] else []⟩)], ?_,
      List.forall_mem_singleton.mpr (delete_fits found keyed nodup ?_ ?_)⟩
    · simp only [deleteCall, here]
      rfl
    · intro column inKey
      have inParts := names first List.mem_cons_self column inKey
      simp only [deletes first List.mem_cons_self, if_true] at inParts
      obtain ⟨part, mem, rfl⟩ := List.mem_map.mp inParts
      obtain ⟨data, made, has⟩ := primaryKeyPayload_of_mem mem
      exact ⟨data, List.mem_map.mpr ⟨first, List.mem_cons_self, made⟩, has⟩
    · by_cases owned : spec.regionField = "" <;> simp [ownerRegionCondition, owned]

theorem partialUpdateCalls_fits (known : region ≠ "")
    (attributed : ∀ event ∈ events, event.peerRegion = region)
    (updates : ∀ event ∈ events, event.operation = .update) :
    ∃ calls, partialUpdateCalls repo mode events = .ok calls ∧
      ((∀ call ∈ calls, CallFits repo call) ↔
        (mode ≠ .insertOnly → ∀ event ∈ events, event.SetsColumn spec)) := by
  unfold partialUpdateCalls
  by_cases insertOnly : mode = .insertOnly
  · exact ⟨[], if_pos insertOnly, iff_of_true nofun fun allowed => absurd insertOnly allowed⟩
  · have each : ∀ group ∈ Grouping.groups fieldSetKey events, ∃ calls,
        partialUpdateCall repo group.2 = .ok calls ∧ ((∀ call ∈ calls, CallFits repo call) ↔
          ∀ event ∈ group.2, event.SetsColumn spec) := by
      intro group grouped
      have inside : ∀ event ∈ group.2, event ∈ events := fun event mem =>
        Grouping.mem_of_mem_groups grouped mem
      have joined := (Grouping.groups_byKey _ events group grouped).2
      exact partialUpdateCall_fits found keyed nodup (fun event mem => ofTable event (inside event mem))
        (fun event mem => names event (inside event mem)) known
        (fun event mem => attributed event (inside event mem))
        (fun event mem => updates event (inside event mem))
        (fun event mem other mem' => (joined event mem).trans (joined other mem').symm)
    obtain ⟨calls, made, fits⟩ := flatten_fits each
    rw [if_neg insertOnly]
    refine ⟨calls, made, fits.trans ⟨fun all _ event mem => ?_, fun all group grouped event mem => ?_⟩⟩
    · obtain ⟨group, grouped, member⟩ := @Grouping.mem_groups_of_mem _ _ _ fieldSetKey _ _ mem
      exact all group grouped event member
    · exact all insertOnly event (Grouping.mem_of_mem_groups grouped mem)

/-- One group of a peer region and a table. -/
theorem groupCalls_fits (known : region ≠ "")
    (attributed : ∀ event ∈ events, event.peerRegion = region) :
    ∃ calls, groupCalls repo mode events = .ok calls ∧ ((∀ call ∈ calls, CallFits repo call) ↔
      (mode ≠ .insertOnly → ∀ event ∈ events, event.SetsColumn spec)) := by
  have kept {keep : ReplicationEvent → Bool} {P : ReplicationEvent → Prop}
      (all : ∀ event ∈ events, P event) : ∀ event ∈ events.filter keep, P event :=
    fun event mem => all event (List.mem_of_mem_filter mem)
  have isPut : ∀ event ∈ events.filter fun event =>
      event.operation != .delete && event.operation != .update, event.operation ≠ .delete := by
    intro event mem
    have keeps := (List.mem_filter.mp mem).2
    simp only [Bool.and_eq_true, bne_iff_ne] at keeps
    exact keeps.1
  have is (operation : ReplicationOperation) :
      ∀ event ∈ events.filter fun event => event.operation == operation, event.operation = operation :=
    fun event mem => eq_of_beq (List.mem_filter.mp mem).2
  obtain ⟨puts, madePuts, fitPuts⟩ :=
    @upsertCall_fits _ _ _ _ found keyed nodup _ mode (kept ofTable) (kept names) isPut
  obtain ⟨updates, madeUpdates, fitUpdates⟩ := @partialUpdateCalls_fits _ _ _ _ _ found keyed nodup _ mode
    (kept ofTable) (kept names) known (kept attributed) (is .update)
  obtain ⟨deletes, madeDeletes, fitDeletes⟩ := deleteCall_fits found keyed nodup (kept ofTable)
    (kept names) (is .delete)
  refine ⟨puts ++ updates ++ deletes, ?_, ?_⟩
  · exact Fallible.bind_eq_ok.mpr ⟨puts, madePuts, Fallible.bind_eq_ok.mpr ⟨updates, madeUpdates,
      Fallible.bind_eq_ok.mpr ⟨deletes, madeDeletes, rfl⟩⟩⟩
  · simp only [List.forall_mem_append]
    constructor
    · rintro ⟨⟨-, fits⟩, -⟩ allowed event mem update
      exact fitUpdates.mp fits allowed event (List.mem_filter.mpr ⟨mem, beq_iff_eq.mpr update⟩) update
    · exact fun sets => ⟨⟨fitPuts, fitUpdates.mpr fun allowed => kept (sets allowed)⟩, fitDeletes⟩

end Writes

section Batches

variable {repo : Repository} {mode : ReplicationApplyMode} {events : List ReplicationEvent}

/-- An event of a configured table with a key, sent by a region. -/
structure ReplicationEvent.Sendable (repo : Repository) (spec : TableSpec) (tableRef : String)
    (event : ReplicationEvent) : Prop where
  found : tableSpec repo event.table = .ok (spec, tableRef)
  keyed : spec.primaryKey ≠ []
  nodup : spec.primaryKey.Nodup
  attributed : event.peerRegion ≠ ""
  names : event.NamesKey spec

/-- The events a batch applies: the last of each key, for each peer region and table. -/
def appliedEvents (events : List ReplicationEvent) : List ReplicationEvent :=
  (Grouping.groups (fun event => (event.peerRegion, event.table)) events).flatMap fun group =>
    Grouping.lastPerKey (·.primaryKey) group.2

/-- Each update that is applied has a column to set, unless updates are not applied. -/
def SetsColumns (repo : Repository) (mode : ReplicationApplyMode) (events : List ReplicationEvent) :
    Prop :=
  mode ≠ .insertOnly → ∀ event ∈ appliedEvents events, ∀ spec tableRef,
    tableSpec repo event.table = .ok (spec, tableRef) → event.SetsColumn spec

theorem groupCalls_setsColumns (sendable : ∀ event ∈ events, ∃ spec tableRef,
      event.Sendable repo spec tableRef) {group : (String × String) × List ReplicationEvent}
    (grouped : group ∈ Grouping.groups (fun event => (event.peerRegion, event.table)) events) :
    ∃ calls, groupCalls repo mode (Grouping.lastPerKey (·.primaryKey) group.2) = .ok calls ∧
      ((∀ call ∈ calls, CallFits repo call) ↔ (mode ≠ .insertOnly →
        ∀ event ∈ Grouping.lastPerKey (·.primaryKey) group.2, ∀ spec tableRef,
          tableSpec repo event.table = .ok (spec, tableRef) → event.SetsColumn spec)) := by
  obtain ⟨nonempty, key⟩ := Grouping.groups_byKey _ events group grouped
  obtain ⟨first, mem⟩ := List.exists_mem_of_ne_nil _ nonempty
  obtain ⟨spec, tableRef, sent⟩ := sendable first (Grouping.mem_of_mem_groups grouped mem)
  -- every event of the group has the table and the region of the first
  have each : ∀ event ∈ Grouping.lastPerKey (·.primaryKey) group.2, event.table = first.table ∧
      event.peerRegion = first.peerRegion ∧ event.NamesKey spec := by
    intro event last
    have inside := Grouping.mem_of_mem_lastPerKey last
    obtain ⟨region, table⟩ := Prod.mk.inj ((key event inside).trans (key first mem).symm)
    obtain ⟨spec', tableRef', sent'⟩ := sendable event (Grouping.mem_of_mem_groups grouped inside)
    cases sent'.found.symm.trans (table ▸ sent.found)
    exact ⟨table, region, sent'.names⟩
  obtain ⟨calls, made, fits⟩ := @groupCalls_fits _ _ _ _ _ sent.found sent.keyed sent.nodup _ mode
    (fun event mem => (each event mem).1) (fun event mem => (each event mem).2.2) sent.attributed
    fun event mem => (each event mem).2.1
  refine ⟨calls, made, fits.trans (forall_congr' fun _ => forall₂_congr fun event mem => ?_)⟩
  constructor
  · intro sets spec' tableRef' found
    cases found.symm.trans ((each event mem).1 ▸ sent.found)
    exact sets
  · exact fun sets => sets spec tableRef ((each event mem).1.symm ▸ sent.found)

theorem eventCalls_fits (sendable : ∀ event ∈ events, ∃ spec tableRef,
      event.Sendable repo spec tableRef) :
    ∃ calls, eventCalls repo mode events = .ok calls ∧
      ((∀ call ∈ calls, CallFits repo call) ↔ SetsColumns repo mode events) := by
  obtain ⟨calls, made, fits⟩ :=
    flatten_fits fun _ grouped => @groupCalls_setsColumns repo mode _ sendable _ grouped
  refine ⟨calls, made, fits.trans ⟨fun all allowed event mem => ?_, fun sets group grouped allowed => ?_⟩⟩
  · obtain ⟨group, grouped, last⟩ := List.mem_flatMap.mp mem
    exact all group grouped allowed event last
  · exact fun event last => sets allowed event (List.mem_flatMap.mpr ⟨group, grouped, last⟩)

theorem snapshotCall_fits {peerRegion table tableRef : String} {spec : TableSpec}
    {rows : List SnapshotRow} {calls : List Call} (found : tableSpec repo table = .ok (spec, tableRef))
    (keyed : spec.primaryKey ≠ []) (nodup : spec.primaryKey.Nodup)
    (made : snapshotCall repo peerRegion table rows = .ok calls) : ∀ call ∈ calls, CallFits repo call := by
  obtain ⟨-, rfl⟩ | ⟨spec', tableRef', payloads, data, found', -, head, complete, rfl⟩ :=
    snapshotCall_cases made
  · exact List.forall_mem_nil _
  · cases found.symm.trans found'
    exact List.forall_mem_singleton.mpr (upsert_fits found keyed nodup (List.mem_of_mem_head? head)
      (buildBatchUpsertQuery_eq_ok.mpr ⟨data, rfl, complete, rfl⟩))

end Batches

/-- Every statement of the row paths fits its arguments, those of a batch if and only if each update
it applies has a column to set. -/
theorem statements_match_arguments {V : Type} [DecidableEq V] (repo : Repository) (server : Server V) :
    (∀ mode events, (∀ event ∈ events, ∃ spec tableRef, event.Sendable repo spec tableRef) →
      ∃ calls, eventCalls repo mode events = .ok calls ∧
        ((∀ call ∈ calls, CallFits repo call) ↔ SetsColumns repo mode events) ∧
        ∀ tables next, applyEventsBatch repo server mode events tables = .ok next ↔
          execAll server calls tables = .ok next) ∧
    (∀ peerRegion table spec tableRef rows calls, tableSpec repo table = .ok (spec, tableRef) →
      spec.primaryKey ≠ [] → spec.primaryKey.Nodup →
      snapshotCall repo peerRegion table rows = .ok calls → ∀ call ∈ calls, CallFits repo call) ∧
    (∀ req spec tableRef read, tableSpec repo req.table = .ok (spec, tableRef) →
      spec.primaryKey ≠ [] → spec.primaryKey.Nodup →
      readSnapshotChunkQuery repo req = .ok read → (read.1.shape read.2).Fits (QueryColumn spec)) ∧
    (∀ spec localRegion afterVersion afterPrimaryKey read,
      spec.primaryKey ≠ [] → spec.primaryKey.Nodup →
      pollingTableQuery spec localRegion afterVersion afterPrimaryKey = .ok read →
        (read.1.shape read.2).Fits (QueryColumn spec)) := by
  refine ⟨?_, ?_, ?_, ?_⟩
  · intro mode events sendable
    obtain ⟨calls, made, fits⟩ := eventCalls_fits sendable
    refine ⟨calls, made, fits, fun tables next => ?_⟩
    rw [issues_events mode events tables next, made]
    simp
  · intro peerRegion table spec tableRef rows calls found keyed nodup made
    exact snapshotCall_fits found keyed nodup made
  · intro req spec tableRef read found keyed nodup made
    obtain ⟨_, found', made⟩ := Fallible.bind_eq_ok.mp made
    cases found.symm.trans found'
    cases made
    exact readSnapshotQuery_fits keyed nodup req
  · intro spec localRegion afterVersion afterPrimaryKey read keyed nodup made
    obtain ⟨tableRef, -, made⟩ := Fallible.bind_eq_ok.mp made
    cases made
    exact pollingQuery_fits keyed nodup localRegion afterVersion afterPrimaryKey

/-- An update that changed nothing is captured with its key alone; the statement for it has no
parameter and two arguments, on any tables. -/
theorem unchanged_update_fails :
    ∃ change call, buildUpdateDiffChange (usersCapture true) (.ofList [(1, UpdateDiff.notesRelation)])
        1 (some UpdateDiff.annTuple) (some UpdateDiff.annTuple) 20 = .ok (some change) ∧
      (eventOfChange (fun _ => "event") usersFeed change).Sendable usersRepository usersSpec
        "\"users\"" ∧
      eventCalls usersRepository .fullSync
        [eventOfChange (fun _ => "event") usersFeed change] = .ok [call] ∧
      ¬CallFits usersRepository call ∧
      ∀ tables, ∃ err, applyEventsBatch usersRepository UpdateDiff.notesServer .fullSync
        [eventOfChange (fun _ => "event") usersFeed change] tables = .error err := by
  refine ⟨_, _, by rfl, ⟨by rfl, by decide, by decide, by decide, by decide⟩, by rfl, ?_,
    fun tables => ⟨_, by rfl⟩⟩
  rintro ⟨_, _, _, -, -, -, fits⟩
  have first := (fits.parameters 1).mpr (by decide)
  cases first

/-- A user renamed after an update that changed nothing, another renamed, and one deleted. -/
def userChanges : List ReplicationEvent :=
  [{ userEvent "us" "1" 4 "" with operation := .update, fields := .ofList [("id", Json.quote "1")] },
    userEvent "us" "1" 5 "eve", { userEvent "us" "2" 6 "ann" with operation := .update },
    { userEvent "us" "3" 7 "bob" with operation := .delete }]

theorem userChanges_sendable (event : ReplicationEvent) (mem : event ∈ userChanges) :
    ∃ spec tableRef, event.Sendable usersRepository spec tableRef := by
  have each : ∀ event ∈ userChanges, event.table = "users" ∧ event.peerRegion ≠ "" ∧
      event.NamesKey usersSpec := by
    decide
  obtain ⟨table, attributed, names⟩ := each event mem
  refine ⟨usersSpec, "\"users\"", ⟨?_, by decide, by decide, attributed, names⟩⟩
  rw [table]
  rfl

theorem userChanges_setsColumns : SetsColumns usersRepository .fullSync userChanges := by
  have each : ∀ event ∈ appliedEvents userChanges, event.SetsColumn usersSpec := by decide
  intro _ event mem spec tableRef found
  rw [usersRepository_spec found]
  exact each event mem

theorem statements_match_arguments_users :
    (∃ calls, eventCalls usersRepository .fullSync userChanges = .ok calls ∧ calls.length = 3 ∧
      ∀ call ∈ calls, CallFits usersRepository call) ∧
    (∃ calls, snapshotCall usersRepository "us" "users"
        [⟨userKey "1", some (userEvent "us" "1" 4 "eve").fields, 0⟩] = .ok calls ∧
      calls.length = 1 ∧ ∀ call ∈ calls, CallFits usersRepository call) ∧
    (∃ read, readSnapshotChunkQuery usersRepository ⟨"eu", "users", userKey "1", 100⟩ = .ok read ∧
      read.2.length = 3 ∧ (read.1.shape read.2).Fits (QueryColumn usersSpec)) ∧
    ∃ read, pollingTableQuery usersSpec "eu" 7 (userKey "1") = .ok read ∧
      read.2.length = 4 ∧ (read.1.shape read.2).Fits (QueryColumn usersSpec) := by
  obtain ⟨events, snapshots, reads, polls⟩ := statements_match_arguments usersRepository usersServer
  refine ⟨?_, ?_, ?_, ?_⟩
  · obtain ⟨calls, made, fits, -⟩ := events .fullSync userChanges userChanges_sendable
    refine ⟨calls, made, ?_, fits.mpr userChanges_setsColumns⟩
    cases made
    rfl
  · exact ⟨_, by rfl, by rfl, snapshots "us" "users" usersSpec "\"users\""
      [⟨userKey "1", some (userEvent "us" "1" 4 "eve").fields, 0⟩] _ (by rfl) (by decide) (by decide)
      (by rfl)⟩
  · exact ⟨_, by rfl, by rfl, reads ⟨"eu", "users", userKey "1", 100⟩ usersSpec "\"users\"" _ (by rfl)
      (by decide) (by decide) (by rfl)⟩
  · exact ⟨_, by rfl, by rfl, polls usersSpec "eu" 7 (userKey "1") _ (by decide) (by decide) (by rfl)⟩

end Transmogr

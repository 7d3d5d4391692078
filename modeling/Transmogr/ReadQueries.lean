import Mathlib.Data.List.Lex
import Mathlib.Data.Prod.Lex
import Mathlib.Data.String.Basic
import Mathlib.Order.WithBot
import Transmogr.Paging
import Transmogr.Parameters
import Transmogr.PolledRows

/-! What the reading statements return of a table that does not change. -/
namespace Transmogr

open Sql

/-- A server that is also read from. -/
structure ReadServer (V : Type) extends Server V where
  /-- `(extract(epoch from value) * 1000000)::bigint` -/
  microseconds : V → Int
  /-- `to_jsonb` of a row of the table. -/
  toJsonb : String → Row V → Object

variable {V : Type} [LinearOrder V] (server : ReadServer V)

/-- `(t.key) > (cursor.key)`: the first pair that differs decides; NULL before it leaves the
comparison unknown. -/
def rowAfter : List (Option V) → List (Option V) → Bool
  | some value :: values, some other :: others =>
    if value = other then rowAfter values others else decide (other < value)
  | _, _ => false

omit [LinearOrder V] in
/-- The version expression of a row. -/
def versionOf (column : Option String) (row : Row V) : Option Int :=
  (column.bind row).map server.microseconds

/-- Whether the WHERE clause takes the condition as true; it has no negation, so unknown is as good
as false. -/
def Condition.holds (args : List Argument) (version : Option String) (cursor row : Row V) :
    Condition → Bool
  | .regionIs column parameter =>
    match args[parameter - 1]? with
    | some (.text value) => row column == some (server.ofText value)
    | _ => false
  | .versionAfter parameter =>
    match args[parameter - 1]?, versionOf server version row with
    | some (.number value), some version => decide (value < version)
    | _, _ => false
  | .versionIs parameter =>
    match args[parameter - 1]?, versionOf server version row with
    | some (.number value), some version => decide (version = value)
    | _, _ => false
  | .keyAfter key => rowAfter (key.map row) (key.map cursor)
  | .and left right => left.holds args version cursor row && right.holds args version cursor row
  | .or left right => left.holds args version cursor row || right.holds args version cursor row

/-- ORDER BY puts NULL after every value. -/
def nullsLast {α : Type} : Option α → WithTop α
  | none => ⊤
  | some value => value

@[simp] theorem nullsLast_some {α : Type} (value : α) : nullsLast (some value) = value := rfl

/-- What ORDER BY compares. -/
def Query.sortKey (query : Query) (row : Row V) : Lex (WithTop Int × List (WithTop V)) :=
  toLex (nullsLast (versionOf server query.version row),
    query.orderBy.map fun column => nullsLast (row column))

def Query.cursorRow (query : Query) (args : List Argument) : Except String (Row V) :=
  match query.cursor with
  | none => .ok fun _ => none
  | some parameter =>
    match args[parameter - 1]? with
    | some (.json payload) => populateRecord server.toServer query.tableRef payload
    | _ => .error "invalid input for type json"

/-- The rows a query returns of those of its table. -/
def Query.run (query : Query) (args : List Argument) (rows : List (Row V)) :
    Except String (List (Row V)) := do
  let cursor ← query.cursorRow server args
  let found := rows.filter fun row =>
    query.conditions.all (Condition.holds server args query.version cursor row)
  match args[query.limit - 1]? with
  | some (.number limit) => .ok ((Paging.ordered (query.sortKey server) found).take limit.toNat)
  | _ => .error "invalid input for LIMIT"

variable {server} in
theorem Query.run_eq {query : Query} {args : List Argument} {cursor : Row V} {limit : Int}
    (bound : query.cursorRow server args = .ok cursor)
    (limited : args[query.limit - 1]? = some (.number limit)) (rows : List (Row V)) :
    query.run server args rows = .ok ((Paging.ordered (query.sortKey server) (rows.filter fun row =>
      query.conditions.all (Condition.holds server args query.version cursor row))).take
        limit.toNat) := by
  rw [Query.run, bound]
  simp only [bind, Except.bind, limited]

/-- The columns of a row's primary key, in the order of the table's configuration. -/
def TableSpec.keyOf (spec : TableSpec) (row : Row V) : List (WithTop V) :=
  spec.primaryKey.map fun column => nullsLast (row column)

/-- The rows of a configured table. The last field is what is assumed of PostgreSQL: what `to_jsonb`
makes of a key column, `json_populate_record` reads back. -/
structure StoredTable (spec : TableSpec) (tableRef : String) where
  rows : List (Row V)
  hasKey : spec.primaryKey ≠ []
  notNull : ∀ row ∈ rows, ∀ column ∈ spec.primaryKey, (row column).isSome
  distinct : rows.Pairwise (spec.keyOf · ≠ spec.keyOf ·)
  readsBack : ∀ row ∈ rows, ∀ column ∈ spec.primaryKey, column ∈ server.columns tableRef ∧
    ∃ raw, (server.toJsonb tableRef row)[column]? = some raw ∧
      server.populate tableRef column raw = some (row column)

/-- The position a resume key stands for: none before the first row, else the columns the key is read
as. -/
def Denotes (spec : TableSpec) (tableRef : String) (parts : PrimaryKey) :
    Option (List (WithTop V)) → Prop
  | none => parts = []
  | some key => parts ≠ [] ∧ ∃ row,
    populateRecord server.toServer tableRef (primaryKeyPayload parts) = .ok row ∧
      spec.keyOf row = key ∧ ∀ column ∈ spec.primaryKey, (row column).isSome

/-- The key parts of a payload that has the key columns. -/
def TableSpec.partsOf (spec : TableSpec) (types : String → PrimaryKeyType) (payload : Object) :
    PrimaryKey :=
  spec.primaryKey.map fun column => ⟨column, types column, payload.getD column []⟩

section Keys

variable {server} {spec : TableSpec} {tableRef : String} (table : StoredTable server spec tableRef)
  (types : String → PrimaryKeyType) {row : Row V}

omit [LinearOrder V] in
theorem primaryKeyPartsFromMap_stored (mem : row ∈ table.rows) :
    primaryKeyPartsFromMap (server.toJsonb tableRef row) spec.primaryKey types =
      .ok (spec.partsOf types (server.toJsonb tableRef row)) := by
  apply Fallible.mapM_eq_map
  intro column inKey
  obtain ⟨-, raw, found, -⟩ := table.readsBack row mem column inKey
  simp [found, Std.ExtTreeMap.getD_eq_getD_getElem?]

omit [LinearOrder V] in
theorem getElem?_foldl_parts (types : String → PrimaryKeyType) (value : String → Bytes)
    (columns : List String) (object : Object) (column : String) :
    ((columns.map fun column => (⟨column, types column, value column⟩ : PrimaryKeyPart)).foldl
      (fun object part => object.insert part.column part.value) object)[column]? =
        if column ∈ columns then some (value column) else object[column]? := by
  induction columns generalizing object with
  | nil => simp
  | cons head rest ih =>
    rw [List.map_cons, List.foldl_cons, ih]
    by_cases later : column ∈ rest
    · simp [later]
    · by_cases same : head = column
      · simp [same]
      · simp [later, same, Ne.symm same, Std.ExtTreeMap.getElem?_insert]

omit [LinearOrder V] in
/-- The key of a stored row stands for the row's place in the order. -/
theorem denotes_stored (mem : row ∈ table.rows) :
    Denotes server spec tableRef (spec.partsOf types (server.toJsonb tableRef row))
      (some (spec.keyOf row)) := by
  have filled : spec.partsOf types (server.toJsonb tableRef row) ≠ [] := by
    simpa [TableSpec.partsOf] using table.hasKey
  refine ⟨filled, ?_⟩
  rw [primaryKeyPayload, if_neg (by simpa using filled), TableSpec.partsOf]
  generalize made : List.foldl _ _ _ = object
  have present : ∀ column, object[column]? = if column ∈ spec.primaryKey then
      some ((server.toJsonb tableRef row).getD column []) else none := by
    intro column
    rw [← made, getElem?_foldl_parts types fun column => (server.toJsonb tableRef row).getD column []]
    simp
  have read : ∀ column ∈ spec.primaryKey, column ∈ server.columns tableRef ∧
      (object[column]?.bind (server.populate tableRef column)) = some (row column) := by
    intro column inKey
    obtain ⟨known, raw, found, back⟩ := table.readsBack row mem column inKey
    refine ⟨known, ?_⟩
    simp [present, inKey, Std.ExtTreeMap.getD_eq_getD_getElem?, found, back]
  have populated : populates server.toServer tableRef object = true := by
    apply List.all_eq_true.mpr
    intro column _
    by_cases inKey : column ∈ spec.primaryKey
    · have found := (read column inKey).2
      rw [present, if_pos inKey] at found ⊢
      exact Option.isSome_of_eq_some found
    · simp [present, inKey]
  have same : ∀ column ∈ spec.primaryKey, populateRow server.toServer tableRef object column =
      row column := by
    intro column inKey
    obtain ⟨known, found⟩ := read column inKey
    rw [populateRow, if_pos known, found]
    rfl
  refine ⟨populateRow server.toServer tableRef object, if_pos populated,
    List.map_congr_left fun column inKey => congrArg nullsLast (same column inKey), ?_⟩
  intro column inKey
  rw [same column inKey]
  exact table.notNull row mem column inKey

/-- Between keys without NULL the row comparison is the order of the keys. -/
theorem rowAfter_iff {columns : List String} {row cursor : Row V}
    (left : ∀ column ∈ columns, (row column).isSome)
    (right : ∀ column ∈ columns, (cursor column).isSome) :
    rowAfter (columns.map row) (columns.map cursor) = true ↔
      columns.map (nullsLast <| cursor ·) < columns.map (nullsLast <| row ·) := by
  induction columns with
  | nil => simp [rowAfter]
  | cons column rest ih =>
    obtain ⟨value, atRow⟩ := Option.isSome_iff_exists.mp (left column List.mem_cons_self)
    obtain ⟨other, atCursor⟩ := Option.isSome_iff_exists.mp (right column List.mem_cons_self)
    have onward := ih (fun c mem => left c (List.mem_cons_of_mem _ mem))
      fun c mem => right c (List.mem_cons_of_mem _ mem)
    simp only [List.map_cons, atRow, atCursor, rowAfter, List.cons_lt_cons_iff, nullsLast_some,
      WithTop.coe_lt_coe, WithTop.coe_inj]
    by_cases same : value = other
    · simp [same, onward]
    · simp [same, Ne.symm same]

end Keys

/-- A server whose columns are all text; a time is a tally of its microseconds. -/
def textReadServer (columns : String → List String) : ReadServer String where
  toServer := textServer columns
  microseconds value := value.length
  toJsonb table row := .ofList ((columns table).map fun column =>
    (column, (row column).elim Json.nullText Json.quote))

def usersReadServer : ReadServer String := textReadServer fun _ => ["id", "region", "updated_at"]

def storedUser (id updatedAt : String) : Row String := fun column =>
  if column = "id" then some id
  else if column = "region" then some "eu"
  else if column = "updated_at" then some updatedAt
  else none

def usersTable : StoredTable usersReadServer usersSpec "\"users\"" where
  rows := [storedUser "b" "|", storedUser "a" "||"]
  hasKey := usersSpec_key_ne
  notNull := by decide
  distinct := by decide
  readsBack := by
    intro row mem column inKey
    obtain rfl : column = "id" := List.mem_singleton.mp inKey
    rcases List.mem_pair.mp mem with rfl | rfl
    · exact ⟨by decide, Json.quote "b", by decide, by decide⟩
    · exact ⟨by decide, Json.quote "a", by decide, by decide⟩

end Transmogr

import Transmogr.Capture
import Transmogr.Maps

/-! The two payloads of a row: the capture loop prints the text of every column as a JSON string, the
polling and snapshot queries take `to_jsonb` of the row. The receiver rebuilds both with
`json_populate_recordset`. -/
namespace Transmogr.RowPayloads

open Sql

/-- How PostgreSQL prints and reads the columns of a table. A json or jsonb value is the text of its
JSON value. -/
structure ColumnTypes (V : Type) where
  /-- The column is of type json or jsonb. -/
  isJson : String → Bool
  json : Bytes → V
  /-- The input function of the column's type. -/
  input : String → Bytes → Option V
  /-- The text of a value in a WAL tuple. -/
  output : String → V → String
  /-- A value as `to_jsonb` has it. -/
  toJsonb : String → V → Bytes

/-- The text a JSON value feeds to an input function: the contents of a string, else the value as it
is written. -/
def contents (raw : Bytes) : Bytes := (Json.unmarshalString raw).elim raw Json.utf8

namespace ColumnTypes

variable {V : Type} (types : ColumnTypes V)

/-- `json_populate_recordset` on one field. -/
def populate (column : String) (raw : Bytes) : Option (Option V) :=
  if raw = Json.nullText then some none
  else if types.isJson column then some (some (types.json raw))
  else (types.input column (contents raw)).map some

/-- What is documented of the columns of a row: a json value is printed as its text and embedded as
it is; any other value is read back from its text and from its JSON form. -/
structure Documented (row : Row V) : Prop where
  jsonValue : ∀ column value, row column = some value → types.isJson column = true →
    ∃ text, value = types.json (Json.utf8 text) ∧ types.output column value = text ∧
      types.toJsonb column value = Json.utf8 text
  fromText : ∀ column value, row column = some value → types.isJson column = false →
    types.input column (Json.utf8 (types.output column value)) = some value
  fromJson : ∀ column value, row column = some value → types.isJson column = false →
    types.toJsonb column value ≠ Json.nullText ∧
      types.input column (contents (types.toJsonb column value)) = some value

/-- The column of a text-format tuple. -/
def tupleColumn (row : Row V) (column : String) : TupleColumn :=
  match row column with
  | none => ⟨.null, ""⟩
  | some value => ⟨.text, types.output column value⟩

def tuple (columns : List String) (row : Row V) : TupleData := columns.map (types.tupleColumn row)

/-- `to_jsonb` of a row. -/
def rowToJsonb (columns : List String) (row : Row V) : Object :=
  Maps.fill id (fun column => some ((row column).elim Json.nullText (types.toJsonb column))) columns

end ColumnTypes

/-- The relation of a relation message with these columns. -/
def relationOf (tableName : String) (spec : TableSpec)
    (pkTypes : Std.ExtTreeMap String PrimaryKeyType) (columns : List String) : PostgresRelation :=
  ⟨tableName, spec.primaryKey, pkTypes,
    columns.zipIdx.foldl (fun map entry => map.insert entry.1 entry.2) ∅, spec.regionField⟩

/-- The payload of a tuple without placeholders has the JSON of each of its columns. -/
theorem buildTuplePayload_eq {relation : PostgresRelation} {tuple : TupleData}
    (plain : ∀ column ∈ tuple, column.dataType ≠ .toast) :
    ∃ payload, buildTuplePayload relation (some tuple) = .ok payload ∧
      ∀ name : String, payload[name]? = (relation.column tuple name).map tupleColumnToJSON := by
  let json (entry : String × Nat) := tuple[entry.2]?.map tupleColumnToJSON
  refine ⟨Maps.fill Prod.fst json relation.columnByName.toList, ?_, ?_⟩
  · apply Fallible.foldlM_eq_ok
    intro entry _ payload
    cases found : tuple[entry.2]? with
    | none => simp [json, found]
    | some column => simp [json, found, plain column (List.mem_of_getElem? found)]
  · intro name
    rw [Maps.getElem?_fill_toList, PostgresRelation.column]
    cases relation.columnByName[name]? <;> rfl

section Columns

variable {V : Type} {types : ColumnTypes V} {row : Row V} {column : String}

theorem quote_ne_null (text : String) : Json.quote text ≠ Json.nullText := by
  simp [Json.quote, Json.encodeString, Json.nullText]

theorem contents_quote (text : String) : contents (Json.quote text) = Json.utf8 text := by
  simp [contents, Json.unmarshalString_quote]

theorem isJson_of_stored {value : V} (plain : types.isJson column = true → row column = none)
    (stored : row column = some value) : types.isJson column = false := by
  cases kind : types.isJson column with
  | false => rfl
  | true => exact absurd (plain kind) (by simp [stored])

/-- From the text of its WAL tuple a column is read back, unless it is a json value. -/
theorem populate_tupleColumn (documented : types.Documented row)
    (plain : types.isJson column = true → row column = none) :
    types.populate column (tupleColumnToJSON (types.tupleColumn row column)) = some (row column) := by
  unfold ColumnTypes.tupleColumn tupleColumnToJSON ColumnTypes.populate
  cases stored : row column with
  | none => simp
  | some value =>
    have other := isJson_of_stored plain stored
    simp [quote_ne_null, other, contents_quote, documented.fromText column value stored other]

/-- From `to_jsonb` a column is read back, unless it is a json value. -/
theorem populate_toJsonb (documented : types.Documented row)
    (plain : types.isJson column = true → row column = none) :
    types.populate column ((row column).elim Json.nullText (types.toJsonb column)) =
      some (row column) := by
  unfold ColumnTypes.populate
  cases stored : row column with
  | none => simp
  | some value =>
    have other := isJson_of_stored plain stored
    obtain ⟨printed, read⟩ := documented.fromJson column value stored other
    simp [printed, other, read]

/-- A json value comes back from the WAL tuple as a JSON string of its text. -/
theorem populate_tupleColumn_json {value : V} (stored : row column = some value)
    (kind : types.isJson column = true) :
    types.populate column (tupleColumnToJSON (types.tupleColumn row column)) =
      some (some (types.json (Json.quote (types.output column value)))) := by
  simp [ColumnTypes.tupleColumn, tupleColumnToJSON, ColumnTypes.populate, stored, quote_ne_null, kind]

end Columns

/-- A table as the receiver's server reads it. -/
structure ReceivedTable (V : Type) where
  types : ColumnTypes V
  columns : List String
  nodup : columns.Nodup
  server : Server V
  tableRef : String
  known : server.columns tableRef = columns
  reads : ∀ column raw, server.populate tableRef column raw = types.populate column raw

namespace ReceivedTable

variable {V : Type} (table : ReceivedTable V)

/-- The row `json_populate_recordset` makes of a payload. -/
def rebuild (payload : Object) : Except String (Row V) :=
  populateRecord table.server table.tableRef (some payload)

variable {table} {row : Row V} {payload : Object} {json : String → Bytes}

/-- A payload with a readable value for each column rebuilds the row of these values. -/
theorem rebuild_eq (has : ∀ column ∈ table.columns, payload[column]? = some (json column))
    (readable : ∀ column ∈ table.columns, table.types.populate column (json column) =
      some (row column)) :
    table.rebuild payload =
      .ok fun column => if column ∈ table.columns then row column else none := by
  have populated : populates table.server table.tableRef payload = true := by
    apply List.all_eq_true.mpr
    intro column mem
    rw [table.known] at mem
    simp only [has column mem, table.reads, readable column mem, Option.isSome_some]
  rw [rebuild, populateRecord, if_pos populated]
  congr 1
  funext column
  rw [populateRow, table.known]
  split
  · next mem => simp [has column mem, table.reads, readable column mem]
  · rfl

/-- The capture payload of a row. -/
theorem buildTuplePayload_row (table : ReceivedTable V) (tableName : String) (spec : TableSpec)
    (pkTypes : Std.ExtTreeMap String PrimaryKeyType) (row : Row V) :
    ∃ payload, buildTuplePayload (relationOf tableName spec pkTypes table.columns)
        (some (table.types.tuple table.columns row)) = .ok payload ∧
      ∀ column ∈ table.columns,
        payload[column]? = some (tupleColumnToJSON (table.types.tupleColumn row column)) := by
  have plain : ∀ column ∈ table.types.tuple table.columns row, column.dataType ≠ .toast := by
    intro column mem
    obtain ⟨name, -, rfl⟩ := List.mem_map.mp mem
    unfold ColumnTypes.tupleColumn
    split <;> simp
  obtain ⟨payload, built, has⟩ := @buildTuplePayload_eq (relationOf tableName spec pkTypes table.columns)
    _ plain
  refine ⟨payload, built, ?_⟩
  intro column mem
  obtain ⟨index, found⟩ := List.getElem?_of_mem mem
  have position : (relationOf tableName spec pkTypes table.columns).columnByName[column]? = some index :=
    (Maps.getElem?_indexes table.nodup).mpr found
  rw [has, PostgresRelation.column, position]
  simp [ColumnTypes.tuple, found]

theorem rowToJsonb_getElem? (row : Row V) : ∀ column ∈ table.columns,
    (table.types.rowToJsonb table.columns row)[column]? =
      some ((row column).elim Json.nullText (table.types.toJsonb column)) := by
  intro column mem
  unfold ColumnTypes.rowToJsonb
  rw [Maps.getElem?_fill fun a _ b _ same => by rw [show a = b from same]]
  exact ⟨column, mem, rfl, rfl⟩

theorem rebuilt_column {rebuilt : Row V} {column : String} {raw : Bytes}
    (made : table.rebuild payload = .ok rebuilt) (mem : column ∈ table.columns)
    (has : payload[column]? = some raw) : rebuilt column = (table.types.populate column raw).join := by
  rw [rebuild, populateRecord] at made
  split at made
  · cases made
    rw [populateRow, table.known, if_pos mem, has, Option.bind_some, table.reads]
  · cases made

/-- A row without json values is rebuilt from both payloads as it is. Where a JSON string is another
value than its contents, no other row is rebuilt alike: a captured json value arrives as a JSON string
of its text. -/
theorem payloads_rebuild_row (table : ReceivedTable V) (tableName : String) (spec : TableSpec)
    (pkTypes : Std.ExtTreeMap String PrimaryKeyType) (documented : table.types.Documented row) :
    ∃ payload, buildTuplePayload (relationOf tableName spec pkTypes table.columns)
        (some (table.types.tuple table.columns row)) = .ok payload ∧
      ((∀ column ∈ table.columns, table.types.isJson column = true → row column = none) →
        ∃ rebuilt, table.rebuild payload = .ok rebuilt ∧
          table.rebuild (table.types.rowToJsonb table.columns row) = .ok rebuilt ∧
          ∀ column ∈ table.columns, rebuilt column = row column) ∧
      ((∀ text, table.types.json (Json.quote text) ≠ table.types.json (Json.utf8 text)) →
        ((∃ rebuilt, table.rebuild payload = .ok rebuilt ∧
            table.rebuild (table.types.rowToJsonb table.columns row) = .ok rebuilt) ↔
          ∀ column ∈ table.columns, table.types.isJson column = true → row column = none)) := by
  obtain ⟨payload, built, has⟩ := buildTuplePayload_row table tableName spec pkTypes row
  have same : (∀ column ∈ table.columns, table.types.isJson column = true → row column = none) →
      ∃ rebuilt, table.rebuild payload = .ok rebuilt ∧
        table.rebuild (table.types.rowToJsonb table.columns row) = .ok rebuilt ∧
        ∀ column ∈ table.columns, rebuilt column = row column := by
    intro plain
    refine ⟨_, rebuild_eq has fun column mem => populate_tupleColumn documented (plain column mem),
      rebuild_eq (rowToJsonb_getElem? row) fun column mem =>
        populate_toJsonb documented (plain column mem), ?_⟩
    intro column mem
    exact if_pos mem
  refine ⟨payload, built, same, fun apart => ⟨?_, fun plain => ?_⟩⟩
  · rintro ⟨rebuilt, captured, polled⟩ column mem kind
    cases stored : row column with
    | none => rfl
    | some value =>
      have fromCapture := rebuilt_column captured mem (has column mem)
      have fromPoll := rebuilt_column polled mem (rowToJsonb_getElem? row column mem)
      rw [populate_tupleColumn_json stored kind] at fromCapture
      obtain ⟨text, rfl, printed, embedded⟩ := documented.jsonValue column value stored kind
      rw [stored, Option.elim_some, embedded, ColumnTypes.populate, if_pos kind] at fromPoll
      rw [fromCapture, printed] at fromPoll
      split at fromPoll
      · cases fromPoll
      · exact absurd (Option.some.inj fromPoll) (apart text)
  · obtain ⟨rebuilt, captured, polled, -⟩ := same plain
    exact ⟨rebuilt, captured, polled⟩

end ReceivedTable

/-! A table of notes with a json column; its values are ASCII text. -/

def notesTypes : ColumnTypes Bytes where
  isJson column := column = "data"
  json := id
  input _ text := some text
  output _ value := String.ofList (value.map fun byte => Char.ofNat byte.toNat)
  toJsonb column value := if column = "data" then value else 0x22 :: value ++ [0x22]

def notesTable : ReceivedTable Bytes where
  types := notesTypes
  columns := ["id", "data"]
  nodup := by decide
  server := ⟨fun _ => ["id", "data"], fun _ _ => none, fun _ => notesTypes.populate, Json.utf8⟩
  tableRef := "\"notes\""
  known := rfl
  reads _ _ := rfl

def notesSpec : TableSpec := ⟨"notes", ["id"], "updated_at", ""⟩

def note (data : Option String) : Row Bytes := fun column =>
  if column = "id" then some (Json.utf8 "n1")
  else if column = "data" then data.map Json.utf8
  else none

theorem note_documented {data : Option String}
    (printed : ∀ text ∈ data, notesTypes.output "data" (Json.utf8 text) = text) :
    notesTypes.Documented (note data) := by
  have id_of : ∀ column value, note data column = some value → notesTypes.isJson column = false →
      value = Json.utf8 "n1" := by
    intro column value stored other
    have ne : column ≠ "data" := by simpa [notesTypes] using other
    by_cases key : column = "id"
    · simpa [note, key, eq_comm] using stored
    · simp [note, key, ne] at stored
  constructor
  · intro column value stored kind
    obtain rfl : column = "data" := by simpa [notesTypes] using kind
    have mapped : data.map Json.utf8 = some value := stored
    obtain ⟨text, given, rfl⟩ := Option.map_eq_some_iff.mp mapped
    exact ⟨text, rfl, printed text given, by simp [notesTypes]⟩
  · intro column value stored other
    rw [id_of column value stored other]
    rfl
  · intro column value stored other
    rw [id_of column value stored other]
    have ne : column ≠ "data" := by simpa [notesTypes] using other
    simp only [notesTypes, if_neg ne]
    decide

/-- The capture payload turns an object into a string of its text. -/
theorem json_column_differs :
    notesTypes.Documented (note (some "\x7b\"a\":1\x7d")) ∧
    ∃ payload captured polled,
      buildTuplePayload (relationOf "notes" notesSpec ∅ notesTable.columns)
        (some (notesTypes.tuple notesTable.columns (note (some "\x7b\"a\":1\x7d")))) = .ok payload ∧
      notesTable.rebuild payload = .ok captured ∧
      notesTable.rebuild (notesTypes.rowToJsonb notesTable.columns (note (some "\x7b\"a\":1\x7d"))) =
        .ok polled ∧
      captured "data" = some (Json.quote "\x7b\"a\":1\x7d") ∧
      polled "data" = some (Json.utf8 "\x7b\"a\":1\x7d") ∧ captured ≠ polled := by
  refine ⟨note_documented (by decide), _, _, _, rfl, rfl, rfl, by decide, by decide, ?_⟩
  intro same
  have apart := congrFun same "data"
  revert apart
  decide

theorem length_utf8EncodeChar_le (c : Char) :
    (String.utf8EncodeChar c).length ≤ (Json.escapeChar Json.needsCode c).length := by
  have size := c.utf8Size_le_four
  rw [Json.escapeChar, String.length_utf8EncodeChar]
  split
  · next letter short =>
    have ascii : c.toNat < 128 := by
      unfold Json.escapeLetter at short
      split at short <;> first | omega | cases short
    have one : c.utf8Size = 1 := Char.utf8Size_eq_one_iff.mpr (Nat.le_of_lt_succ ascii)
    simp [one]
  · split
    · simp only [Json.escapeCode, List.length_cons, List.length_nil]
      omega
    · rw [String.length_utf8EncodeChar]

theorem length_utf8_lt_quote (text : String) : (Json.utf8 text).length < (Json.quote text).length := by
  have body : (text.toList.flatMap String.utf8EncodeChar).length ≤
      (text.toList.flatMap (Json.escapeChar Json.needsCode)).length := by
    induction text.toList with
    | nil => rfl
    | cons c cs ih =>
      rw [List.flatMap_cons, List.flatMap_cons, List.length_append, List.length_append]
      exact Nat.add_le_add (length_utf8EncodeChar_le c) ih
  simp only [Json.utf8, Json.quote, Json.encodeString, List.length_append, List.length_cons]
  omega

theorem payloads_rebuild_row_notes :
    ∃ payload, buildTuplePayload (relationOf "notes" notesSpec ∅ notesTable.columns)
        (some (notesTypes.tuple notesTable.columns (note none))) = .ok payload ∧
      ∃ rebuilt, notesTable.rebuild payload = .ok rebuilt ∧
        notesTable.rebuild (notesTypes.rowToJsonb notesTable.columns (note none)) = .ok rebuilt := by
  obtain ⟨payload, built, -, exact_when⟩ := ReceivedTable.payloads_rebuild_row notesTable "notes"
    notesSpec ∅ (@note_documented none (by simp))
  have apart : ∀ text, notesTypes.json (Json.quote text) ≠ notesTypes.json (Json.utf8 text) :=
    fun text same => (length_utf8_lt_quote text).ne' (congrArg List.length same)
  exact ⟨payload, built, (exact_when apart).mpr (by decide)⟩

end Transmogr.RowPayloads

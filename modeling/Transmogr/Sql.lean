import Mathlib.Data.List.Sort
import Transmogr.Fallible
import Transmogr.Json

/-! The fragment of PostgreSQL the repository's row statements use. A statement
takes its rows from `json_populate_recordset(NULL::table, $1::json)`. -/
namespace Transmogr.Sql

/-- A JSON object with raw values. -/
abbrev Object := Std.ExtTreeMap String Bytes

/-- A value for each column; `none` is NULL. -/
abbrev Row (V : Type) := String → Option V

/-- The rows of a table by the values of its primary key. -/
abbrev TableRows (V : Type) := List V → Option (Row V)

abbrev Tables (V : Type) := String → TableRows V

/-- The part of a server the statements depend on: the columns of each table,
their defaults, the conversion of a JSON field to a column's type, and the
value of a text parameter. -/
structure Server (V : Type) where
  columns : String → List String
  columnDefault : String → String → Option V
  populate : String → String → Bytes → Option (Option V)
  ofText : String → V

/-- A server on which every column is text without a default. -/
def textServer (columns : String → List String) : Server String where
  columns
  columnDefault _ _ := none
  populate _ _ raw := if raw = Json.nullText then some none else (Json.unmarshalString raw).map some
  ofText := id

inductive ConflictAction where
  | doNothing
  | doUpdate (assignments : List String) (owner : Option String)
  deriving DecidableEq, Repr

inductive Statement where
  /-- `INSERT INTO table (columns) SELECT … ON CONFLICT (key) action` -/
  | insert (table : String) (columns key : List String) (action : ConflictAction)
  /-- `UPDATE table SET … WHERE target.key = src.key [AND target.region = $2]` -/
  | update (table : String) (assignments key : List String) (region : Option String)
  /-- `DELETE … WHERE target.key = source.key [AND (region IS NULL OR region = $2)]` -/
  | delete (table : String) (key : List String) (region : Option String)
  /-- `SELECT 1 FROM table WHERE false` -/
  | selectNothing (table : String)
  deriving DecidableEq, Repr

def Statement.placeholders : Statement → Nat
  | .insert .. => 1
  | .update _ _ _ region => 1 + region.toList.length
  | .delete _ _ region => 1 + region.toList.length
  | .selectNothing _ => 0

/-- The arguments of one execution: the JSON array, then text. A payload is
`none` where the array holds a JSON null. -/
structure Args where
  payloads : List (Option Object)
  texts : List String

def Args.count (args : Args) : Nat := 1 + args.texts.length

variable {V : Type} [DecidableEq V] (server : Server V)

/-- A record of the table's row type; fields it does not name are NULL. -/
def populateRow (table : String) (object : Object) : Row V := fun column =>
  if column ∈ server.columns table then (object[column]?.bind (server.populate table column)).join
  else none

def populates (table : String) (object : Object) : Bool :=
  (server.columns table).all fun column =>
    match object[column]? with
    | none => true
    | some raw => (server.populate table column raw).isSome

def populateRecord (table : String) : Option Object → Except String (Row V)
  | none => .error "argument of json_populate_recordset must be an array of objects"
  | some object =>
    if populates server table object then .ok (populateRow server table object)
    else .error "invalid input for a column of json_populate_recordset"

/-- The values of the key columns; `none` if one of them is NULL. -/
def keyValues (key : List String) (row : Row V) : Option (List V) := key.mapM row

def assign (target source : Row V) (assignments : List String) : Row V := fun column =>
  if column ∈ assignments then source column else target column

def setRow (rows : TableRows V) (key : List V) (row : Option (Row V)) : TableRows V :=
  fun other => if other = key then row else rows other

def setTable (tables : Tables V) (table : String) (rows : TableRows V) : Tables V :=
  fun other => if other = table then rows else tables other

/-- The rows so far, and the keys this statement inserted or updated. -/
structure InsertState (V : Type) where
  rows : TableRows V
  touched : List (List V)

/-- `target.owner IS NULL OR target.owner = EXCLUDED.owner` -/
def ownerAllows (owner : Option String) (target excluded : Row V) : Bool :=
  match owner with
  | none => true
  | some column =>
    match target column with
    | none => true
    | some value => excluded column == some value

def insertedRow (table : String) (columns : List String) (source : Row V) : Row V := fun column =>
  if column ∈ columns then source column else server.columnDefault table column

def insertRow (table : String) (columns key : List String) (action : ConflictAction)
    (state : InsertState V) (source : Row V) : Except String (InsertState V) :=
  let excluded := insertedRow server table columns source
  match keyValues key excluded with
  | none => .error "null value in a primary key column violates not-null constraint"
  | some values =>
    match state.rows values with
    | none => .ok ⟨setRow state.rows values (some excluded), values :: state.touched⟩
    | some target =>
      match action with
      | .doNothing => .ok state
      | .doUpdate assignments owner =>
        if values ∈ state.touched then
          .error "ON CONFLICT DO UPDATE command cannot affect row a second time"
        else if ownerAllows owner target excluded then
          .ok ⟨setRow state.rows values (some (assign target excluded assignments)),
            values :: state.touched⟩
        else .ok state

def updateRows (key assignments : List String) (allowed : Row V → Bool) (sources : List (Row V))
    (rows : TableRows V) : TableRows V := fun values =>
  (rows values).map fun target =>
    if allowed target then
      match sources.find? fun source => keyValues key source == some values with
      | some source => assign target source assignments
      | none => target
    else target

def deleteRows (key : List String) (allowed : Row V → Bool) (sources : List (Row V))
    (rows : TableRows V) : TableRows V := fun values =>
  (rows values).filter fun target =>
    !(allowed target && sources.any fun source => keyValues key source == some values)

/-- `target.region = $2` -/
def regionIs (region : Option String) (text : Option String) (target : Row V) : Bool :=
  match region, text with
  | some column, some text => target column == some (server.ofText text)
  | some _, none => false
  | none, _ => true

/-- `target.region IS NULL OR target.region = $2` -/
def regionIsOrNull (region : Option String) (text : Option String) (target : Row V) : Bool :=
  match region with
  | some column => (target column).isNone || regionIs server region text target
  | none => true

def unknownColumn (table : String) (columns : List String) : Option String :=
  columns.find? fun column => column ∉ server.columns table

/-- One execution: pgx checks the number of arguments first, then the server
the names, then the rows are read and changed. -/
def exec (statement : Statement) (args : Args) (tables : Tables V) : Except String (Tables V) :=
  if args.count ≠ statement.placeholders then
    .error "mismatched param and argument count"
  else match statement with
    | .selectNothing _ => .ok tables
    | .insert table columns key action =>
      match unknownColumn server table columns with
      | some column => .error ("column " ++ column ++ " does not exist")
      | none => do
        let sources ← args.payloads.mapM (populateRecord server table)
        let final ← sources.foldlM (insertRow server table columns key action) ⟨tables table, []⟩
        return setTable tables table final.rows
    | .update table assignments key region =>
      match unknownColumn server table (assignments ++ key ++ region.toList) with
      | some column => .error ("column " ++ column ++ " does not exist")
      | none => do
        let sources ← args.payloads.mapM (populateRecord server table)
        return setTable tables table
          (updateRows key assignments (regionIs server region args.texts.head?) sources
            (tables table))
    | .delete table key region =>
      match unknownColumn server table (key ++ region.toList) with
      | some column => .error ("column " ++ column ++ " does not exist")
      | none => do
        let sources ← args.payloads.mapM (populateRecord server table)
        return setTable tables table
          (deleteRows key (regionIsOrNull server region args.texts.head?) sources (tables table))

section Keys

variable {V : Type} {key : List String} {row row' : Row V}

theorem keyValues_congr (same : ∀ column ∈ key, row column = row' column) :
    keyValues key row = keyValues key row' := by
  induction key with
  | nil => rfl
  | cons column key ih =>
    obtain ⟨head, tail⟩ := List.forall_mem_cons.mp same
    rw [keyValues, keyValues, List.mapM_cons, List.mapM_cons, head]
    exact bind_congr fun _ => congrArg (· >>= _) (ih tail)

theorem column_eq_of_keyValues {values : List V} (keyed : keyValues key row = some values)
    (keyed' : keyValues key row' = some values) : ∀ column ∈ key, row column = row' column := by
  induction key generalizing values with
  | nil => exact nofun
  | cons column key ih =>
    simp only [keyValues, List.mapM_cons, Option.bind_eq_bind, Option.bind_eq_some_iff,
      Option.pure_def, Option.some.injEq] at keyed keyed'
    obtain ⟨head, at_row, rest, tail, rfl⟩ := keyed
    obtain ⟨_, at_row', _, tail', same⟩ := keyed'
    cases same
    exact List.forall_mem_cons.mpr ⟨at_row.trans at_row'.symm, ih tail tail'⟩

theorem keyValues_insertedRow {server : Server V} {table : String} {columns : List String}
    {source : Row V} (keyed : ∀ column ∈ key, column ∈ columns) :
    keyValues key (insertedRow server table columns source) = keyValues key source :=
  keyValues_congr fun column mem => if_pos (keyed column mem)

end Keys

section Exec

variable {server} {table : String} {columns key assignments : List String} {action : ConflictAction}
  {region : Option String} {args : Args} {tables after : Tables V}

omit [DecidableEq V] in
theorem unknownColumn_eq_none :
    unknownColumn server table columns = none ↔ ∀ column ∈ columns, column ∈ server.columns table := by
  simp [unknownColumn]

/-- What every statement with rows checks before it reads them. -/
theorem checked_eq_ok {α : Type} {count : Prop} [Decidable count] {message : String}
    {unknown : Option String} {complain : String → String} {run : Except String α} {a : α} :
    (if ¬count then Except.error message
      else match unknown with
        | some column => .error (complain column)
        | none => run) = .ok a ↔ count ∧ unknown = none ∧ run = .ok a := by
  by_cases counted : count <;> cases unknown <;> simp [counted]

theorem exec_insert_eq_ok :
    exec server (.insert table columns key action) args tables = .ok after ↔
      args.count = 1 ∧
      (∀ column ∈ columns, column ∈ server.columns table) ∧
      ∃ sources, args.payloads.mapM (populateRecord server table) = .ok sources ∧
      ∃ final, sources.foldlM (insertRow server table columns key action) ⟨tables table, []⟩ = .ok final ∧
        setTable tables table final.rows = after := by
  refine checked_eq_ok.trans ?_
  simp only [unknownColumn_eq_none, Fallible.bind_eq_ok, pure, Except.pure, Except.ok.injEq]
  rfl

theorem exec_update_eq_ok :
    exec server (.update table assignments key region) args tables = .ok after ↔
      args.count = 1 + region.toList.length ∧
      (∀ column ∈ assignments ++ key ++ region.toList, column ∈ server.columns table) ∧
      ∃ sources, args.payloads.mapM (populateRecord server table) = .ok sources ∧
        setTable tables table (updateRows key assignments
          (regionIs server region args.texts.head?) sources (tables table)) = after := by
  refine checked_eq_ok.trans ?_
  simp only [unknownColumn_eq_none, Fallible.bind_eq_ok, pure, Except.pure, Except.ok.injEq]
  rfl

theorem exec_delete_eq_ok :
    exec server (.delete table key region) args tables = .ok after ↔
      args.count = 1 + region.toList.length ∧
      (∀ column ∈ key ++ region.toList, column ∈ server.columns table) ∧
      ∃ sources, args.payloads.mapM (populateRecord server table) = .ok sources ∧
        setTable tables table (deleteRows key
          (regionIsOrNull server region args.texts.head?) sources (tables table)) = after := by
  refine checked_eq_ok.trans ?_
  simp only [unknownColumn_eq_none, Fallible.bind_eq_ok, pure, Except.pure, Except.ok.injEq]
  rfl

end Exec

end Transmogr.Sql

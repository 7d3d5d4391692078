import Transmogr.Grouping
import Transmogr.Sql
import Transmogr.Wire

/-! Row changes as `repository/postgres/events.go` and `snapshot.go` make them. -/
namespace Transmogr

open Sql

structure TableSpec where
  name : String
  primaryKey : List String
  updatedAtField : String
  regionField : String
  deriving DecidableEq, Repr

structure ColumnInfo where
  name : String
  dataType : String
  deriving DecidableEq, Repr

/-- The configured tables of a repository. -/
structure Repository where
  tableByName : Std.ExtTreeMap String TableSpec

/-- `unicode.IsSpace` -/
def isUnicodeSpace (c : Char) : Bool :=
  let n := c.toNat
  (0x09 ≤ n && n ≤ 0x0d) || n == 0x20 || n == 0x85 || n == 0xa0 || n == 0x1680 ||
    (0x2000 ≤ n && n ≤ 0x200a) || n == 0x2028 || n == 0x2029 || n == 0x202f || n == 0x205f || n == 0x3000

/-- `strings.TrimSpace` -/
def trimSpaces (cs : List Char) : List Char :=
  ((cs.dropWhile isUnicodeSpace).reverse.dropWhile isUnicodeSpace).reverse

def quoteIdentifier (name : List Char) : List Char :=
  let quote := Char.ofNat 0x22
  quote :: name.flatMap (fun c => if c = quote then [quote, quote] else [c]) ++ [quote]

def quoteTableName (name : String) : Except String String :=
  let parts := (name.toList.splitOn (Char.ofNat 0x2e)).map trimSpaces
  if parts.length > 2 ∨ [] ∈ parts then .error ("invalid table name " ++ quoted name)
  else .ok (String.ofList ([Char.ofNat 0x2e].intercalate (parts.map quoteIdentifier)))

def tableSpec (repo : Repository) (table : String) : Except String (TableSpec × String) :=
  match repo.tableByName[table]? with
  | none => .error ("table " ++ quoted table ++ " is not configured")
  | some spec => (quoteTableName spec.name).map fun tableRef => (spec, tableRef)

/-- A nil payload is what an empty field map encodes to. -/
def fieldsToPayload (fields : Fields) : Option Object :=
  if fields.isEmpty then none else some fields

theorem fieldsToPayload_of_mem {fields : Fields} {column : String} (mem : column ∈ fields) :
    fieldsToPayload fields = some fields := by
  apply if_neg
  intro empty
  rw [Std.ExtTreeMap.isEmpty_iff.mp empty] at mem
  exact Std.ExtTreeMap.not_mem_empty mem

def provenanceValues (spec : TableSpec) (region : String) : List (String × String) :=
  if spec.regionField ≠ "" ∧ region ≠ "" then [(spec.regionField, region)] else []

def buildUpsertPayload (payload : Option Object) (extra : List (String × String)) :
    Except String (Option Object) :=
  if extra.isEmpty then .ok payload
  else match payload with
    | none => .error "decode upsert payload: unexpected end of JSON input"
    | some data => .ok (some (extra.foldl (fun data entry =>
        if entry.1 = "" then data else data.insert entry.1 (Json.quote entry.2)) data))

def ownerRegionCondition (spec : TableSpec) : Option String :=
  if spec.regionField = "" then none else some spec.regionField

def buildBatchUpsertQuery (spec : TableSpec) (tableRef : String) (payload : Option Object)
    (allowUpdate : Bool) : Except String Statement :=
  match payload with
  | none => .error ("decode snapshot payload for " ++ spec.name ++ ": unexpected end of JSON input")
  | some data =>
    match spec.primaryKey.find? fun column => !data.contains column with
    | some column => .error ("snapshot payload for " ++ spec.name ++ " missing primary key " ++
        quoted column)
    | none =>
      let columns := data.keys
      let updateAssignments := columns.filter fun column => column ∉ spec.primaryKey
      let action :=
        if updateAssignments.isEmpty ∨ !allowUpdate then .doNothing
        else .doUpdate updateAssignments (ownerRegionCondition spec)
      .ok (.insert tableRef columns spec.primaryKey action)

def buildBatchPartialUpdateQuery (spec : TableSpec) (tableRef : String)
    (samplePayload : Option Object) : Except String Statement :=
  match samplePayload with
  | none => .error ("decode partial update payload for " ++ spec.name ++
      ": unexpected end of JSON input")
  | some data =>
    let updateCols := data.keys.filter fun column => column ∉ spec.primaryKey
    if updateCols.isEmpty then .ok (.selectNothing tableRef)
    else .ok (.update tableRef updateCols spec.primaryKey (ownerRegionCondition spec))

def buildBatchDeleteQuery (spec : TableSpec) (tableRef : String) : Statement :=
  .delete tableRef spec.primaryKey (ownerRegionCondition spec)

/-- The JSON object of a key, or null for a key without parts. -/
def primaryKeyPayload (parts : PrimaryKey) : Option Object :=
  if parts.isEmpty then none
  else some (parts.foldl (fun object part => object.insert part.column part.value) ∅)

variable {V : Type} [DecidableEq V] (repo : Repository) (server : Server V)

def wrapError {α : Type} (context : String) (x : Except String α) : Except String α :=
  x.mapError fun err => context ++ ": " ++ err

theorem wrapError_eq_ok {α : Type} {context : String} {x : Except String α} {a : α} :
    wrapError context x = .ok a ↔ x = .ok a := by
  cases x with
  | error err => exact ⟨nofun, nofun⟩
  | ok b => exact Iff.rfl

def applyUpsertBatch (mode : ReplicationApplyMode) (events : List ReplicationEvent)
    (tables : Tables V) : Except String (Tables V) :=
  match events with
  | [] => .ok tables
  | first :: _ => do
    let (spec, tableRef) ← tableSpec repo first.table
    let provenance := provenanceValues spec first.peerRegion
    let payloads ← events.mapM fun event =>
      buildUpsertPayload (fieldsToPayload event.fields) provenance
    let query ← buildBatchUpsertQuery spec tableRef payloads.head?.join (mode ≠ .insertOnly)
    wrapError ("apply upsert batch for " ++ first.table) (exec server query ⟨payloads, []⟩ tables)

def applyPartialUpdateGroup (events : List ReplicationEvent) (tables : Tables V) :
    Except String (Tables V) :=
  match events with
  | [] => .ok tables
  | first :: _ => do
    let (spec, tableRef) ← tableSpec repo first.table
    let payloads := events.map fun event => fieldsToPayload event.fields
    let query ← buildBatchPartialUpdateQuery spec tableRef payloads.head?.join
    let texts := if spec.regionField ≠ "" ∧ first.peerRegion ≠ "" then [first.peerRegion] else []
    wrapError ("apply partial update batch for " ++ first.table)
      (exec server query ⟨payloads, texts⟩ tables)

/-- The group key joins the sorted field names with commas. -/
def fieldSetKey (event : ReplicationEvent) : String × String :=
  (event.table, String.intercalate "," event.fields.keys)

def applyPartialUpdateBatch (mode : ReplicationApplyMode) (events : List ReplicationEvent)
    (tables : Tables V) : Except String (Tables V) :=
  if mode = .insertOnly then .ok tables
  else (Grouping.groups fieldSetKey events).foldlM
    (fun tables group => applyPartialUpdateGroup repo server group.2 tables) tables

def applyDeleteBatch (events : List ReplicationEvent) (tables : Tables V) :
    Except String (Tables V) :=
  match events with
  | [] => .ok tables
  | first :: _ => do
    let (spec, tableRef) ← tableSpec repo first.table
    let texts := if spec.regionField ≠ "" then [first.peerRegion] else []
    wrapError ("apply delete batch for " ++ first.table)
      (exec server (buildBatchDeleteQuery spec tableRef)
        ⟨events.map fun event => primaryKeyPayload event.primaryKey, texts⟩ tables)

/-- One (peer region, table) group: upserts, then updates, then deletes. -/
def applyGroup (mode : ReplicationApplyMode) (events : List ReplicationEvent)
    (tables : Tables V) : Except String (Tables V) := do
  let upserts := events.filter fun event => event.operation != .delete && event.operation != .update
  let updates := events.filter fun event => event.operation == .update
  let deletes := events.filter fun event => event.operation == .delete
  let tables ← applyUpsertBatch repo server mode upserts tables
  let tables ← if updates.isEmpty then .ok tables
    else applyPartialUpdateBatch repo server mode updates tables
  applyDeleteBatch repo server deletes tables

/-- Events are grouped by peer region and table, and the last event of each
primary key wins. The key's parts stand for their JSON encoding. -/
def applyEventsBatch (mode : ReplicationApplyMode) (events : List ReplicationEvent)
    (tables : Tables V) : Except String (Tables V) :=
  (Grouping.groups (fun event => (event.peerRegion, event.table)) events).foldlM
    (fun tables group =>
      applyGroup repo server mode (Grouping.lastPerKey (·.primaryKey) group.2) tables)
    tables

structure SnapshotRow where
  primaryKey : PrimaryKey
  payload : Option Object
  version : Int

def applySnapshotChunk (peerRegion table : String) (rows : List SnapshotRow) (tables : Tables V) :
    Except String (Tables V) :=
  match rows with
  | [] => .ok tables
  | first :: _ => do
    let (spec, tableRef) ← tableSpec repo table
    let provenance := provenanceValues spec peerRegion
    let samplePayload ← buildUpsertPayload first.payload provenance
    let query ← buildBatchUpsertQuery spec tableRef samplePayload true
    let payloads ← rows.mapM fun row => buildUpsertPayload row.payload provenance
    wrapError ("apply snapshot chunk for " ++ table) (exec server query ⟨payloads, []⟩ tables)

def usersSpec : TableSpec := ⟨"users", ["id"], "updated_at", "region"⟩

theorem usersSpec_key_ne : usersSpec.primaryKey ≠ [] := by decide

theorem usersSpec_field_ne : usersSpec.regionField ≠ "" := by decide

def usersRepository : Repository := ⟨.ofList [("users", usersSpec)]⟩

def usersServer : Server String := textServer fun _ => ["id", "name", "region"]

def userKey (id : String) : PrimaryKey := [⟨"id", .string, Json.quote id⟩]

def userEvent (region id : String) (version : Int) (name : String) : ReplicationEvent where
  peerRegion := region
  table := "users"
  eventID := "event"
  primaryKey := userKey id
  operation := .upsert
  version
  fields := .ofList
    [("id", Json.quote id), ("name", Json.quote name), ("region", Json.quote region)]

theorem userKey_wire (id : String) : WireKey (userKey id) :=
  ⟨[⟨"id", some (.stringValue id)⟩], rfl⟩

end Transmogr

import Transmogr.Changefeed
import Transmogr.Skipping

/-! Rows listed by the polling query, cut into event batches, sent over the wire
and applied. The source orders key values by their contents, the receiver by
the JSON text the wire codec gives them. -/
namespace Transmogr

open Sql

/-- A key value of the source table: text, a signed integer or a boolean. -/
inductive KeyValue where
  | text (value : String)
  | integer (value : Int64)
  | boolean (value : Bool)
  deriving DecidableEq

namespace KeyValue

/-- `normalizePrimaryKeyType` of the column's type. -/
def type : KeyValue → PrimaryKeyType
  | text _ => .string
  | integer _ => .integer
  | boolean _ => .boolean

/-- The value inside `to_jsonb(t)`. -/
def toJsonb : KeyValue → Bytes
  | text s => Json.jsonbString s
  | integer v => Json.formatInt v.toInt
  | boolean b => Json.formatBool b

/-- The order of the source: text bytewise, integers by value, false before
true. The values of one column have one type. -/
def compare : KeyValue → KeyValue → Ordering
  | text s, text t => Ord.compare (Json.utf8 s) (Json.utf8 t)
  | integer v, integer w => Ord.compare v.toInt w.toInt
  | boolean b, boolean c => Ord.compare b c
  | v, w => Ord.compare v.type.name w.type.name

end KeyValue

/-- A row of the polled table: its version, its key values in configured column
order, and its JSON image. -/
structure SourceRow where
  version : Int
  key : List KeyValue
  payload : Object

/-- `ORDER BY version ASC, primary key ASC` -/
def SourceRow.Before (a b : SourceRow) : Prop :=
  (Ord.compare a.version b.version).then (List.compareLex KeyValue.compare a.key b.key) = .lt

instance (a b : SourceRow) : Decidable (a.Before b) :=
  inferInstanceAs (Decidable ((Ord.compare a.version b.version).then _ = .lt))

/-- A row of a table with these key columns and column types. -/
structure SourceRow.Fits (columns : List String) (types : String → PrimaryKeyType)
    (row : SourceRow) : Prop where
  width : row.key.length = columns.length
  typed : ∀ entry ∈ columns.zip row.key, types entry.1 = entry.2.type
  carried : ∀ entry ∈ columns.zip row.key, row.payload[entry.1]? = some entry.2.toJsonb

def primaryKeyPartsFromMap (data : Object) (columns : List String)
    (types : String → PrimaryKeyType) : Except String PrimaryKey :=
  columns.mapM fun column =>
    match data[column]? with
    | none => .error ("missing primary key column " ++ quoted column)
    | some value => .ok ⟨column, types column, value⟩

/-- The change of one row of `ChangefeedPollingListTableChanges`. -/
def pollingChange (spec : TableSpec) (types : String → PrimaryKeyType) (row : SourceRow) :
    Except String ChangefeedChange := do
  let primaryKey ← wrapError ("extract polling primary key for " ++ spec.name)
    (primaryKeyPartsFromMap row.payload spec.primaryKey types)
  return ⟨spec.name, primaryKey, .upsert, row.version, some row.payload⟩

section Definitions

variable (digest : Bytes → String)

/-- The event batches of the listed rows: pages of the polling query, each cut
by `enqueueBatch`. -/
def polledBatches (cfg : ChangefeedConfig) (spec : TableSpec) (types : String → PrimaryKeyType)
    (pageSize : Nat) (rows : List SourceRow) : Except String (List (List ReplicationEvent)) := do
  let changes ← rows.mapM (pollingChange spec types)
  return (Chunks.chunks pageSize changes).flatMap fun page =>
    enqueueChunks cfg (handleBatchEvents digest cfg page)

end Definitions

/-- The key parts of a row as the receiver decodes them. -/
def wirePart (column : String) : KeyValue → PrimaryKeyPart
  | .text s => ⟨column, .string, Json.quote s⟩
  | .integer v => ⟨column, .integer, Json.formatInt v.toInt⟩
  | .boolean b => ⟨column, .boolean, Json.formatBool b⟩

def wireKeyOf (columns : List String) (key : List KeyValue) : PrimaryKey :=
  List.zipWith wirePart columns key

theorem throughWire_part (column : String) (value : KeyValue) :
    throughWire [⟨column, value.type, value.toJsonb⟩] = [wirePart column value] := by
  cases value with
  | text s =>
    simp [throughWire, assignProtoPrimaryKeyValue, KeyValue.type, KeyValue.toJsonb, wirePart,
      Json.unmarshalString_jsonbString]
  | integer v =>
    have read := Json.unmarshalInt64_formatInt (Int64.le_toInt v)
      (Int.le_sub_one_of_lt (Int64.toInt_lt v))
    simp [throughWire, assignProtoPrimaryKeyValue, KeyValue.type, KeyValue.toJsonb, wirePart, read]
  | boolean b =>
    simp [throughWire, assignProtoPrimaryKeyValue, KeyValue.type, KeyValue.toJsonb, wirePart,
      Json.unmarshalBool_formatBool]

theorem throughWire_cons (part : PrimaryKeyPart) (key : PrimaryKey) :
    throughWire (part :: key) = throughWire [part] ++ throughWire key := rfl

/-- A row that fits its table has the key its values say, and the receiver
decodes it to their wire form. -/
theorem primaryKey_of_fits {columns : List String} {types : String → PrimaryKeyType}
    {data : Object} {key : List KeyValue} {parts : PrimaryKey}
    (width : key.length = columns.length)
    (typed : ∀ entry ∈ columns.zip key, types entry.1 = entry.2.type)
    (carried : ∀ entry ∈ columns.zip key, data[entry.1]? = some entry.2.toJsonb)
    (ok : primaryKeyPartsFromMap data columns types = .ok parts) :
    throughWire parts = wireKeyOf columns key := by
  have each := Fallible.mapM_eq_ok.mp ok
  clear ok
  induction each generalizing key with
  | nil => rfl
  | cons head _ ih =>
    cases key with
    | nil => simp at width
    | cons value key =>
      have first := carried _ List.mem_cons_self
      have firstType := typed _ List.mem_cons_self
      simp only [first] at head
      cases head
      rw [throughWire_cons, firstType, throughWire_part,
        ih (by simpa using width) (fun e mem => typed e (List.mem_cons_of_mem _ mem))
          (fun e mem => carried e (List.mem_cons_of_mem _ mem))]
      rfl

theorem wirePart_compare_eq {column : String} {v w : KeyValue} (same : v.type = w.type)
    (eq : comparePrimaryKeyPart (wirePart column v) (wirePart column w) = .eq) : v = w := by
  cases v <;> cases w <;> cases same
  · next s t =>
    simp only [comparePrimaryKeyPart, wirePart, Std.ReflOrd.compare_self, Ordering.then,
      comparePrimaryKeyValue] at eq
    rw [Json.quote_injective (Std.LawfulEqOrd.compare_eq_iff_eq.mp eq)]
  · next v w =>
    have readV := Json.unmarshalInt64_formatInt (Int64.le_toInt v)
      (Int.le_sub_one_of_lt (Int64.toInt_lt v))
    have readW := Json.unmarshalInt64_formatInt (Int64.le_toInt w)
      (Int.le_sub_one_of_lt (Int64.toInt_lt w))
    simp only [comparePrimaryKeyPart, wirePart, Std.ReflOrd.compare_self, Ordering.then,
      comparePrimaryKeyValue, compareIntegerJSON, readV, readW] at eq
    rw [Int64.toInt_inj.mp (Std.LawfulEqOrd.compare_eq_iff_eq.mp eq)]
  · next b c =>
    simp only [comparePrimaryKeyPart, wirePart, Std.ReflOrd.compare_self, Ordering.then,
      comparePrimaryKeyValue, compareBoolJSON, Json.unmarshalBool_formatBool] at eq
    cases b <;> cases c <;> first | rfl | cases eq

theorem wireKeyOf_compare_eq {columns : List String} {types : String → PrimaryKeyType}
    {a b : List KeyValue} (widthA : a.length = columns.length) (widthB : b.length = columns.length)
    (typedA : ∀ entry ∈ columns.zip a, types entry.1 = entry.2.type)
    (typedB : ∀ entry ∈ columns.zip b, types entry.1 = entry.2.type)
    (eq : comparePrimaryKeys (wireKeyOf columns a) (wireKeyOf columns b) = .eq) : a = b := by
  induction columns generalizing a b with
  | nil => rw [List.length_eq_zero_iff.mp widthA, List.length_eq_zero_iff.mp widthB]
  | cons column columns ih =>
    cases a with
    | nil => simp at widthA
    | cons v a =>
      cases b with
      | nil => simp at widthB
      | cons w b =>
        simp only [wireKeyOf, List.zipWith_cons_cons, comparePrimaryKeys, List.compareLex_cons_cons,
          Ordering.then_eq_eq] at eq
        have sameType : v.type = w.type :=
          (typedA (column, v) List.mem_cons_self).symm.trans (typedB (column, w) List.mem_cons_self)
        rw [wirePart_compare_eq sameType eq.1, ih (by simpa using widthA) (by simpa using widthB)
          (fun e mem => typedA e (List.mem_cons_of_mem _ mem))
          (fun e mem => typedB e (List.mem_cons_of_mem _ mem)) eq.2]

theorem KeyValue.compare_self (v : KeyValue) : KeyValue.compare v v = .eq := by
  cases v <;> exact Std.ReflOrd.compare_self

theorem SourceRow.Before.key_ne {a b : SourceRow} (before : a.Before b)
    (version : a.version = b.version) : a.key ≠ b.key := by
  intro key
  have reflexive : ∀ key : List KeyValue, List.compareLex KeyValue.compare key key = .eq := by
    intro key
    induction key with
    | nil => rfl
    | cons v key ih => rw [List.compareLex_cons_cons, KeyValue.compare_self, ih]; rfl
  rw [SourceRow.Before, version, key, reflexive, Std.ReflOrd.compare_self] at before
  cases before

section Batches

variable {digest : Bytes → String} {cfg : ChangefeedConfig} {spec : TableSpec}
  {types : String → PrimaryKeyType} {pageSize : Nat} {rows : List SourceRow}
  {batches : List (List ReplicationEvent)}

/-- The event of a change as the receiver decodes it. -/
def receivedEvent (digest : Bytes → String) (cfg : ChangefeedConfig) (change : ChangefeedChange) :
    ReplicationEvent :=
  (eventOfChange digest cfg change).received

theorem pollingChange_eq_ok {row : SourceRow} {change : ChangefeedChange}
    (ok : pollingChange spec types row = .ok change) :
    ∃ parts, primaryKeyPartsFromMap row.payload spec.primaryKey types = .ok parts ∧
      change = ⟨spec.name, parts, .upsert, row.version, some row.payload⟩ := by
  obtain ⟨parts, wrapped, eq⟩ := Fallible.bind_eq_ok.mp ok
  refine ⟨parts, ?_, by cases eq; rfl⟩
  cases inner : primaryKeyPartsFromMap row.payload spec.primaryKey types with
  | error err => rw [inner] at wrapped; cases wrapped
  | ok found => rw [inner] at wrapped; cases wrapped; rfl

theorem receivedEvent_position {row : SourceRow} {change : ChangefeedChange}
    (fits : row.Fits spec.primaryKey types) (ok : pollingChange spec types row = .ok change) :
    (receivedEvent digest cfg change).position = ⟨row.version, wireKeyOf spec.primaryKey row.key⟩ := by
  obtain ⟨parts, found, rfl⟩ := pollingChange_eq_ok ok
  rw [← primaryKey_of_fits fits.width fits.typed fits.carried found]
  rfl

/-- The polled rows as one list of received events. -/
theorem polled_onePair {changes : List ChangefeedChange}
    (fits : ∀ row ∈ rows, row.Fits spec.primaryKey types) (ascending : rows.Pairwise SourceRow.Before)
    (listed : rows.mapM (pollingChange spec types) = .ok changes) :
    OnePair cfg.localRegion spec.name (changes.map (receivedEvent digest cfg)) where
  pair e mem := by
    obtain ⟨change, memChange, rfl⟩ := List.mem_map.mp mem
    obtain ⟨row, _, ok⟩ := Fallible.mem_of_mapM listed memChange
    obtain ⟨parts, _, rfl⟩ := pollingChange_eq_ok ok
    exact ⟨rfl, rfl⟩
  typed e mem := by
    obtain ⟨change, _, rfl⟩ := List.mem_map.mp mem
    exact (throughWire_wireKey change.primaryKey).typed
  distinct := by
    rw [List.pairwise_map]
    refine Fallible.pairwise_of_mapM listed ascending ?_
    intro a memA b memB x y okA okB before eq
    rw [receivedEvent_position (fits a memA) okA, receivedEvent_position (fits b memB) okB,
      comparePositions, Ordering.then_eq_eq] at eq
    have version := Std.LawfulEqOrd.compare_eq_iff_eq.mp eq.1
    exact before.key_ne version (wireKeyOf_compare_eq (fits a memA).width (fits b memB).width
      (fits a memA).typed (fits b memB).typed eq.2)

/-- Every batch is a run of the rows' events. -/
theorem polledBatch_sublist {changes : List ChangefeedChange} {batch : List ReplicationEvent}
    (pages : 0 < pageSize) (max : 0 < cfg.maxBatchEvents)
    (mem : batch ∈ (Chunks.chunks pageSize changes).flatMap fun page =>
      enqueueChunks cfg (handleBatchEvents digest cfg page)) :
    batch.Sublist (changes.map (eventOfChange digest cfg)) ∧ batch ≠ [] := by
  obtain ⟨page, memPage, memBatch⟩ := List.mem_flatMap.mp mem
  refine ⟨?_, Chunks.ne_nil_of_mem_chunks max memBatch⟩
  have inPage : batch.Sublist (handleBatchEvents digest cfg page) :=
    Chunks.sublist_of_mem_chunks max memBatch
  have inChanges : (handleBatchEvents digest cfg page).Sublist (changes.map (eventOfChange digest cfg)) :=
    (List.filter_sublist.trans (Chunks.sublist_of_mem_chunks pages memPage)).map _
  exact inPage.trans inChanges

variable {V : Type} [DecidableEq V] {repo : Repository} {server : Server V}
  {mode : ReplicationApplyMode} {store final : Store V}

/-- The rows of a table listed in the source's order are cut into pages and
batches, sent over the wire and applied once in order. Every event is applied
and none is skipped exactly when each batch is above what the batch before it
left in the store: the source's order alone does not ensure it. -/
theorem polled_rows_applied_iff {received : List (List ReplicationEvent)}
    (fits : ∀ row ∈ rows, row.Fits spec.primaryKey types)
    (ascending : rows.Pairwise SourceRow.Before) (pages : 0 < pageSize)
    (max : 0 < cfg.maxBatchEvents)
    (polled : polledBatches digest cfg spec types pageSize rows = .ok batches)
    (decoded : batches.mapM (fun batch => toReplicationEvents (toProtoEvents batch)) = .ok received)
    (applies : mode = .upsert ∨ mode = .fullSync)
    (stored : ∀ r t cursor, store.cursors r t = some cursor → TypedKey cursor.lastPrimaryKey)
    (delivered : deliver repo server mode (received.map (⟨.eventBatch, ·⟩)) store = .ok final) :
    (skipped repo server mode (received.map (⟨.eventBatch, ·⟩)) store = [] ∧
        (applied repo server mode (received.map (⟨.eventBatch, ·⟩)) store).Perm received.flatten) ↔
      ClearOf (readCursor store.cursors cfg.localRegion spec.name).position received := by
  obtain ⟨changes, listed, eq⟩ := Fallible.bind_eq_ok.mp polled
  cases eq
  have whole : OnePair cfg.localRegion spec.name (changes.map (receivedEvent digest cfg)) :=
    polled_onePair fits ascending listed
  have each : ∀ events ∈ received,
      events.Sublist (changes.map (receivedEvent digest cfg)) ∧ events ≠ [] := by
    intro events mem
    obtain ⟨batch, memBatch, ok⟩ := Fallible.mem_of_mapM decoded mem
    obtain ⟨sublist, nonempty⟩ := polledBatch_sublist pages max memBatch
    rw [toReplicationEvents_toProto] at ok
    cases ok
    refine ⟨?_, by simpa using nonempty⟩
    have mapped := sublist.map ReplicationEvent.received
    rwa [List.map_map] at mapped
  have one : ∀ events ∈ received, OnePair cfg.localRegion spec.name events := fun events mem =>
    whole.sublist (each events mem).1
  have allowed : ∀ events ∈ received, ∀ e ∈ events, Allowed mode e := by
    intro events mem e memE
    obtain ⟨change, memChange, rfl⟩ := List.mem_map.mp ((each events mem).1.subset memE)
    obtain ⟨row, _, ok⟩ := Fallible.mem_of_mapM listed memChange
    obtain ⟨parts, _, rfl⟩ := pollingChange_eq_ok ok
    cases applies with
    | inl upsert => subst upsert; exact ⟨nofun, rfl⟩
    | inr fullSync => subst fullSync; exact ⟨nofun, rfl⟩
  have nonempty : ∀ events ∈ received, events ≠ [] := fun events mem => (each events mem).2
  rw [← skipped_eq_nil_iff_clearOf one nonempty allowed stored delivered]
  refine and_iff_left_of_imp fun none => ?_
  have perm := applied_append_skipped (by simpa using allowed) (by simpa using nonempty) delivered
  rw [none, List.append_nil, List.flatMap_map] at perm
  simpa using perm

end Batches

def usersConfig (maxBatchEvents : Nat) : ChangefeedConfig :=
  ⟨"eu", "polling", .fullSync, maxBatchEvents, ["us"]⟩

def userRow (version : Int) (id : String) : SourceRow where
  version
  key := [.text id]
  payload := ((∅ : Object).insert "name" (Json.jsonbString "ann")
    |>.insert "region" (Json.jsonbString "eu")).insert "id" (Json.jsonbString id)

theorem userRow_fits (version : Int) (id : String) :
    (userRow version id).Fits usersSpec.primaryKey fun _ => .string where
  width := rfl
  typed entry mem := by rw [List.mem_singleton.mp mem]; rfl
  carried entry mem := by
    rw [List.mem_singleton.mp mem]
    exact Std.ExtTreeMap.getElem?_insert_self

/-- The source lists `a` before `a!`, but their JSON texts compare the other way
round, so the second of two batches of one row is skipped. -/
theorem polled_row_skipped :
    [userRow 1 "a", userRow 1 "a!"].Pairwise SourceRow.Before ∧
    ∃ batches received final,
      polledBatches (fun _ => "event") (usersConfig 1) usersSpec (fun _ => .string) 1000
        [userRow 1 "a", userRow 1 "a!"] = .ok batches ∧
      batches.mapM (fun batch => toReplicationEvents (toProtoEvents batch)) = .ok received ∧
      deliver usersRepository usersServer .fullSync (received.map (⟨.eventBatch, ·⟩))
        (.empty String) = .ok final ∧
      (skipped usersRepository usersServer .fullSync (received.map (⟨.eventBatch, ·⟩))
        (.empty String)).map (·.primaryKey) = [userKey "a!"] := by
  refine ⟨by decide, _, _, _, rfl, rfl, rfl, ?_⟩
  decide

/-- Three rows in batches of two; here nothing is skipped. -/
theorem polled_rows_applied_iff_users :
    ∃ received : List (List ReplicationEvent),
      received.map (·.map (·.primaryKey)) = [[userKey "a", userKey "b"], [userKey "c"]] ∧
      ((skipped usersRepository usersServer .upsert (received.map (⟨.eventBatch, ·⟩))
            (.empty String) = [] ∧
          (applied usersRepository usersServer .upsert (received.map (⟨.eventBatch, ·⟩))
            (.empty String)).Perm received.flatten) ↔
        ClearOf (readCursor (Store.empty String).cursors "eu" "users").position received) := by
  have fits : ∀ row ∈ [userRow 1 "a", userRow 1 "b", userRow 2 "c"],
      row.Fits usersSpec.primaryKey fun _ => .string := by
    intro row mem
    simp only [List.mem_cons, List.not_mem_nil, or_false] at mem
    obtain rfl | rfl | rfl := mem <;> exact userRow_fits _ _
  have polled : polledBatches (fun _ => "event") (usersConfig 2) usersSpec (fun _ => .string) 1000
      [userRow 1 "a", userRow 1 "b", userRow 2 "c"] = .ok _ := rfl
  refine ⟨_, ?_, polled_rows_applied_iff fits (by decide) (by decide) (by decide) polled rfl
    (Or.inl rfl) nofun rfl⟩
  decide

end Transmogr

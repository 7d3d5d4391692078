import Transmogr.Capture
import Transmogr.ImageBatches
import Transmogr.Maps

/-! One row change of a captured table: from the WAL message through `HandleBatch`
to the receiver's table. -/
namespace Transmogr

open Sql Overwrite

/-- A captured table whose rows a site replicates: its columns in relation order, the
types its key columns are given, and the text PostgreSQL prints for a value, which the
site's column of a non-JSON type reads back. -/
structure CapturedTable {V : Type} (site : Site V) where
  columns : List String
  nodup : columns.Nodup
  same : ∀ column, column ∈ columns ↔ column ∈ site.columns
  types : Std.ExtTreeMap String PrimaryKeyType
  output : String → V → String
  populate_null : ∀ column ∈ columns,
    site.server.populate site.tableRef column Json.nullText = some none
  populate_text : ∀ column ∈ columns, ∀ value,
    site.server.populate site.tableRef column (Json.quote (output column value)) = some (some value)
  output_integer : ∀ column, types[column]? = some .integer → ∀ value,
    (parseInt (output column value)).isSome = true ∧
      site.server.populate site.tableRef column (Json.utf8 (output column value)) =
        some (some value)
  output_region : output site.spec.regionField site.owner = site.region

namespace CapturedTable

variable {V : Type} [DecidableEq V] {site : Site V} (table : CapturedTable site)

/-- The relation `resolveRelation` makes of the table's relation message. -/
def relation : PostgresRelation where
  tableName := site.table
  primaryKey := site.spec.primaryKey
  primaryKeyTypes := table.types
  columnByName := table.columns.zipIdx.foldl (fun map entry => map.insert entry.1 entry.2) ∅
  regionField := site.spec.regionField

def tupleColumn (row : Row V) (column : String) : TupleColumn :=
  match row column with
  | none => ⟨.null, ""⟩
  | some value => ⟨.text, table.output column value⟩

/-- The tuple of a row under `REPLICA IDENTITY FULL`. -/
def tuple (row : Row V) : TupleData := table.columns.map (table.tupleColumn row)

end CapturedTable

/-- A change of one row of the source, with its keys before and after. -/
inductive RowChange (V : Type)
  | insert (key : List V) (row : Row V)
  | update (oldKey : List V) (old : Row V) (key : List V) (row : Row V)
  | delete (key : List V) (row : Row V)

namespace RowChange

variable {V : Type} [DecidableEq V]

/-- The key the change is made under. -/
def key : RowChange V → List V
  | .insert key _ | .update _ _ key _ | .delete key _ => key

/-- The row the key is taken from. -/
def row : RowChange V → Row V
  | .insert _ row | .update _ _ _ row | .delete _ row => row

def operation : RowChange V → ReplicationOperation
  | .insert _ _ => .insert
  | .update _ _ _ _ => .update
  | .delete _ _ => .delete

def after (rows : TableRows V) : RowChange V → TableRows V
  | .insert key row => setRow rows key (some row)
  | .update oldKey _ key row => setRow (setRow rows oldKey none) key (some row)
  | .delete key _ => setRow rows key none

/-- The change can be made to the source's rows, and the peer owns the row before and
after it. -/
def Valid (site : Site V) (rows : TableRows V) : RowChange V → Prop
  | .insert key row =>
    rows key = none ∧ site.key row = some key ∧ row site.spec.regionField = some site.owner
  | .update oldKey old key row =>
    rows oldKey = some old ∧ site.key old = some oldKey ∧
      old site.spec.regionField = some site.owner ∧
      site.key row = some key ∧ row site.spec.regionField = some site.owner ∧
      (key = oldKey ∨ rows key = none)
  | .delete key row =>
    rows key = some row ∧ site.key row = some key ∧ row site.spec.regionField = some site.owner

def KeepsKey : RowChange V → Prop
  | .update oldKey _ key _ => key = oldKey
  | .insert _ _ | .delete _ _ => True

/-- What the adapter builds from the WAL message of the change. -/
def build {site : Site V} (table : CapturedTable site) (cfg : CaptureConfig) (relations : Relations)
    (relationID lsn : Nat) : RowChange V → Except String (Option ChangefeedChange)
  | .insert _ row => buildInsertChange cfg relations relationID (some (table.tuple row)) lsn
  | .update _ old _ row =>
    buildUpdateChange cfg relations relationID (some (table.tuple old)) (some (table.tuple row)) lsn
  | .delete _ row => buildDeleteChange cfg relations relationID (some (table.tuple row)) lsn

end RowChange

/-- The receiver after the event of a built change; an error applies nothing. -/
def applyChange {V : Type} [DecidableEq V] (digest : Bytes → String) (feed : ChangefeedConfig)
    (site : Site V) (built : Except String (Option ChangefeedChange)) (tables : Tables V) : Tables V :=
  match built with
  | .ok (some change) =>
    match applyEventsBatch site.repo site.server .fullSync (handleBatchEvents digest feed [change])
      tables with
    | .ok next => next
    | .error _ => tables
  | _ => tables

/-- The receiver holds the peer's rows as the source has them. -/
def Mirrors {V : Type} [DecidableEq V] (site : Site V) (source rows : TableRows V) : Prop :=
  ∀ key, site.view (source key) = site.view (rows key)

namespace CapturedTable

variable {V : Type} {site : Site V} {table : CapturedTable site}

theorem columnByName_iff {column : String} {index : Nat} :
    table.relation.columnByName[column]? = some index ↔ table.columns[index]? = some column :=
  Maps.getElem?_indexes table.nodup

theorem tuple_getElem? {row : Row V} {column : String} {index : Nat}
    (found : table.columns[index]? = some column) :
    (table.tuple row)[index]? = some (table.tupleColumn row column) := by
  unfold tuple
  rw [List.getElem?_map, found]
  rfl

theorem column_tuple (row : Row V) {column : String} (mem : column ∈ table.columns) :
    table.relation.column (table.tuple row) column = some (table.tupleColumn row column) := by
  obtain ⟨index, found⟩ := List.getElem?_of_mem mem
  unfold PostgresRelation.column
  rw [columnByName_iff.mpr found, Option.bind_some, tuple_getElem? found]

theorem tupleColumn_some {row : Row V} {column : String} {value : V} (has : row column = some value) :
    table.tupleColumn row column = ⟨.text, table.output column value⟩ := by
  unfold tupleColumn
  rw [has]

theorem tupleColumn_ne_toast (row : Row V) (column : String) :
    (table.tupleColumn row column).dataType ≠ .toast := by
  unfold tupleColumn
  split <;> simp

/-- What a column of a tuple is sent as, the receiver reads back. -/
theorem populate_tupleColumn (row : Row V) {column : String} (mem : column ∈ table.columns) :
    site.server.populate site.tableRef column (tupleColumnToJSON (table.tupleColumn row column)) =
      some (row column) := by
  unfold tupleColumn
  cases row column with
  | none => exact table.populate_null column mem
  | some value => exact table.populate_text column mem value

/-- Two rows with the same text in a column have the same value there. -/
theorem eq_of_tupleColumn_eq {old row : Row V} {column : String} (mem : column ∈ table.columns)
    (same : table.tupleColumn old column = table.tupleColumn row column) : old column = row column := by
  have first := populate_tupleColumn old mem
  rw [same, populate_tupleColumn row mem] at first
  exact (Option.some.inj first).symm

theorem region_mem : site.spec.regionField ∈ table.columns :=
  (table.same _).mpr site.region_column

theorem key_mem {column : String} (mem : column ∈ site.spec.primaryKey) : column ∈ table.columns :=
  (table.same _).mpr (site.key_column column mem)

theorem known {column : String} (mem : column ∈ table.columns) : column ∈ site.columns :=
  (table.same column).mp mem

theorem region_tuple {row : Row V} (owned : row site.spec.regionField = some site.owner) :
    table.relation.column (table.tuple row) site.spec.regionField = some ⟨.text, site.region⟩ := by
  rw [column_tuple row region_mem, tupleColumn_some owned, table.output_region]

theorem tupleRegionIsLocal_tuple {row : Row V} (owned : row site.spec.regionField = some site.owner) :
    tupleRegionIsLocal table.relation (some (table.tuple row)) site.region = true := by
  have field : table.relation.regionField = site.spec.regionField := rfl
  unfold tupleRegionIsLocal
  simp only [field, site.field_ne, site.region_ne, or_self, if_false, region_tuple owned]
  simp

theorem deleteRegionIsLocal_tuple {row : Row V} (owned : row site.spec.regionField = some site.owner) :
    deleteRegionIsLocal table.relation (some (table.tuple row)) site.region = .ok true := by
  have field : table.relation.regionField = site.spec.regionField := rfl
  unfold deleteRegionIsLocal
  simp only [field, site.field_ne, site.region_ne, or_self, if_false, region_tuple owned]
  simp

/-- The columns of the relation with their indexes. -/
theorem mem_columns_toList {entry : String × Nat} :
    entry ∈ table.relation.columnByName.toList ↔ table.columns[entry.2]? = some entry.1 := by
  rw [Std.ExtTreeMap.mem_toList_iff_getElem?_eq_some]
  exact columnByName_iff

theorem columns_agree {β : Type} {f : String → Option β} :
    ∀ e ∈ table.relation.columnByName.toList, ∀ e' ∈ table.relation.columnByName.toList,
      e.1 = e'.1 → f e.1 = f e'.1 :=
  fun _ _ _ _ same => congrArg f same

theorem prints_fill {α : Type} {key : α → String} {f : α → Option Bytes} {xs : List α}
    {named : List String} {row : Row V} (agree : ∀ x ∈ xs, ∀ y ∈ xs, key x = key y → f x = f y)
    (only : ∀ x ∈ xs, ∀ raw, f x = some raw → key x ∈ named)
    (gives : ∀ column ∈ named, ∃ x ∈ xs, key x = column ∧ ∃ raw, f x = some raw ∧
      site.server.populate site.tableRef column raw = some (row column)) :
    site.Prints (Maps.fill key f xs) named row := by
  constructor
  · intro column mem
    obtain ⟨raw, found⟩ := Option.isSome_iff_exists.mp (Std.ExtTreeMap.mem_iff_isSome_getElem?.mp mem)
    obtain ⟨x, inside, rfl, inserted⟩ := (Maps.getElem?_fill agree).mp found
    exact only x inside raw inserted
  · intro column mem
    obtain ⟨x, inside, same, raw, inserted, populated⟩ := gives column mem
    exact ⟨raw, (Maps.getElem?_fill agree).mpr ⟨x, inside, same, inserted⟩, populated⟩

/-- The payload of an insert or a full update prints the whole row. -/
theorem buildTuplePayload_tuple (row : Row V) :
    ∃ payload, buildTuplePayload table.relation (some (table.tuple row)) = .ok payload ∧
      site.Prints payload table.columns row := by
  let json (entry : String × Nat) := tupleColumnToJSON (table.tupleColumn row entry.1)
  refine ⟨Maps.fill Prod.fst (fun entry => some (json entry)) table.relation.columnByName.toList,
    ?_, ?_⟩
  · apply Fallible.foldlM_eq_ok
    intro entry mem payload
    rw [tuple_getElem? (mem_columns_toList.mp mem)]
    exact if_neg (tupleColumn_ne_toast row entry.1)
  · apply prints_fill
    · exact columns_agree (f := fun column => some (tupleColumnToJSON (table.tupleColumn row column)))
    · intro entry mem _ _
      exact List.mem_of_getElem? (mem_columns_toList.mp mem)
    · intro column mem
      obtain ⟨index, found⟩ := List.getElem?_of_mem mem
      exact ⟨(column, index), mem_columns_toList.mpr found, rfl, _, rfl, populate_tupleColumn row mem⟩

/-- The columns an update with the diff encoding sends. -/
def changed (table : CapturedTable site) (old row : Row V) : List String :=
  table.columns.filter fun column =>
    column ∈ site.spec.primaryKey ∨ table.tupleColumn old column ≠ table.tupleColumn row column

theorem buildUpdateDiffPayload_tuple (old row : Row V) :
    site.Prints (buildUpdateDiffPayload table.relation (table.tuple old) (table.tuple row))
      (table.changed old row) row := by
  let json (column : String) : Option Bytes :=
    if column ∈ table.changed old row then
      some (tupleColumnToJSON (table.tupleColumn row column))
    else none
  have filled : buildUpdateDiffPayload table.relation (table.tuple old) (table.tuple row) =
      Maps.fill Prod.fst (fun entry => json entry.1) table.relation.columnByName.toList := by
    unfold buildUpdateDiffPayload Maps.fill
    apply List.foldl_ext
    intro payload entry mem
    have found := mem_columns_toList.mp mem
    have inColumns := List.mem_of_getElem? found
    have key : table.relation.primaryKey = site.spec.primaryKey := rfl
    simp only [tuple_getElem? found, key, json, changed, List.mem_filter, inColumns, true_and,
      decide_eq_true_eq]
    by_cases inKey : entry.1 ∈ site.spec.primaryKey
    · simp [inKey]
    · by_cases same : table.tupleColumn old entry.1 = table.tupleColumn row entry.1
      · simp [inKey, same]
      · simp [inKey, same, tupleColumn_ne_toast]
  rw [filled]
  apply prints_fill
  · exact columns_agree
  · intro entry _ raw inserted
    by_contra absent
    simp [json, absent] at inserted
  · intro column mem
    have inColumns : column ∈ table.columns := (List.mem_filter.mp mem).1
    obtain ⟨index, found⟩ := List.getElem?_of_mem inColumns
    exact ⟨(column, index), mem_columns_toList.mpr found, rfl, _, if_pos mem,
      populate_tupleColumn row inColumns⟩

/-- The key columns of the row print as text the adapter can make a key of. -/
structure KeyText (table : CapturedTable site) (row : Row V) : Prop where
  filled : ∀ column ∈ site.spec.primaryKey, ∀ value, row column = some value →
    table.output column value ≠ ""
  typed : ∀ column ∈ site.spec.primaryKey, table.types[column]? ≠ some .boolean

theorem primaryKeyValue {row : Row V} (text : table.KeyText row) {column : String}
    (mem : column ∈ site.spec.primaryKey) {value : V} (has : row column = some value) :
    ∃ raw, primaryKeyValueFromString (table.types[column]?.getD .unspecified)
        (table.output column value) = .ok raw ∧
      site.server.populate site.tableRef column raw = some (row column) := by
  have quoted := table.populate_text column (key_mem mem) value
  rw [has]
  cases typ : table.types[column]? with
  | none => exact ⟨_, rfl, quoted⟩
  | some typ' =>
    cases typ' with
    | unspecified | string => exact ⟨_, rfl, quoted⟩
    | boolean => exact absurd typ (text.typed column mem)
    | integer =>
      obtain ⟨parses, populated⟩ := table.output_integer column typ value
      obtain ⟨number, parsed⟩ := Option.isSome_iff_exists.mp parses
      refine ⟨_, ?_, populated⟩
      simp [primaryKeyValueFromString, parsed]

theorem primaryKeyPart_tuple {row : Row V} {key : List V} (text : table.KeyText row)
    (keyed : site.key row = some key) {column : String} (mem : column ∈ site.spec.primaryKey) :
    ∃ raw value, table.relation.primaryKeyPart (table.tuple row) column =
        .ok ⟨column, table.types[column]?.getD .unspecified, raw⟩ ∧
      primaryKeyValueFromString (table.types[column]?.getD .unspecified) (table.output column value) =
        .ok raw ∧
      site.server.populate site.tableRef column raw = some (row column) := by
  obtain ⟨value, has⟩ := Option.ne_none_iff_exists'.mp (Site.ne_none_of_key keyed column mem)
  obtain ⟨raw, made, populated⟩ := primaryKeyValue text mem has
  refine ⟨raw, value, ?_, made, populated⟩
  unfold PostgresRelation.primaryKeyPart
  simp only [column_tuple row (key_mem mem), tupleColumn_some has,
    if_neg (text.filled column mem value has)]
  exact Fallible.bind_eq_ok.mpr ⟨raw, congrArg (wrapError _) made, rfl⟩

/-- The key of a change, as an object, prints the key columns of the row. -/
theorem extractPrimaryKey_tuple {row : Row V} {key : List V} (text : table.KeyText row)
    (keyed : site.key row = some key) :
    ∃ parts object, table.relation.extractPrimaryKey (some (table.tuple row)) = .ok parts ∧
      primaryKeyPayload parts = some object ∧ site.Prints object site.spec.primaryKey row := by
  obtain ⟨parts, extracted, found⟩ :=
    Fallible.mapM_of_forall fun column (mem : column ∈ site.spec.primaryKey) =>
      let ⟨_, _, made, _⟩ := primaryKeyPart_tuple text keyed mem
      ⟨_, made⟩
  have made : ∀ p ∈ parts, p.column ∈ site.spec.primaryKey ∧
      table.relation.primaryKeyPart (table.tuple row) p.column = .ok p := by
    intro p mem
    obtain ⟨column, inKey, same⟩ := Fallible.mem_of_mapM extracted mem
    obtain ⟨raw, value, same', _⟩ := primaryKeyPart_tuple text keyed inKey
    cases same.symm.trans same'
    exact ⟨inKey, same⟩
  refine ⟨parts, Maps.fill PrimaryKeyPart.column (fun p => some p.value) parts, extracted, ?_, ?_⟩
  · have filled : parts.isEmpty = false := by
      obtain ⟨column, mem⟩ := List.exists_mem_of_ne_nil _ site.key_ne
      obtain ⟨p, inside, _⟩ := found column mem
      exact List.isEmpty_eq_false_iff_exists_mem.mpr ⟨p, inside⟩
    unfold primaryKeyPayload
    rw [if_neg (by simp [filled])]
    rfl
  · apply prints_fill
    · intro p mem p' mem' same
      have is := (made p mem).2
      rw [same, (made p' mem').2] at is
      cases is
      rfl
    · exact fun p mem _ _ => (made p mem).1
    · intro column mem
      obtain ⟨p, inside, is⟩ := found column mem
      obtain ⟨raw, value, is', _, populated⟩ := primaryKeyPart_tuple text keyed mem
      cases is.symm.trans is'
      exact ⟨_, inside, rfl, _, rfl, populated⟩

/-- The source's adapter knows the relation, and the peer's region is its own. -/
structure Linked (table : CapturedTable site) (cfg : CaptureConfig) (feed : ChangefeedConfig)
    (relations : Relations) (relationID lsn : Nat) : Prop where
  captures : cfg.localRegion = site.region
  known : relations[relationID]? = some table.relation
  version : (lsn : Int) ≤ Json.maxInt64
  feeds : feed.localRegion = site.region
  broadcasts : feed.broadcastMode = .fullSync

section Linked

variable {cfg : CaptureConfig} {feed : ChangefeedConfig} {relations : Relations}
  {relationID lsn : Nat} {row : Row V} {parts : PrimaryKey}

theorem lsnToVersion_of_le (fits : (lsn : Int) ≤ Json.maxInt64) :
    lsnToVersion cfg lsn = .ok (lsn : Int) :=
  if_neg (by omega)

variable (linked : table.Linked cfg feed relations relationID lsn)
  (extracted : table.relation.extractPrimaryKey (some (table.tuple row)) = .ok parts)
  (owned : row site.spec.regionField = some site.owner)

include linked

theorem handleBatchEvents_single (digest : Bytes → String) (change : ChangefeedChange) :
    handleBatchEvents digest feed [change] = [eventOfChange digest feed change] := by
  simp [handleBatchEvents, linked.broadcasts, broadcastAllowed]

include extracted owned

theorem buildWriteChange_tuple (operation : ReplicationOperation) :
    ∃ payload, buildWriteChange cfg relations relationID (some (table.tuple row)) lsn operation =
        .ok (some ⟨site.table, parts, operation, lsn, some payload⟩) ∧
      site.Prints payload table.columns row := by
  obtain ⟨payload, built, printsRow⟩ := @buildTuplePayload_tuple V site table row
  refine ⟨payload, ?_, printsRow⟩
  unfold buildWriteChange
  simp only [linked.known, linked.captures, tupleRegionIsLocal_tuple owned, Bool.not_true,
    Bool.false_eq_true, if_false, extracted, built, lsnToVersion_of_le linked.version]
  rfl

/-- Either encoding of an update prints the key and every column that changed. -/
theorem buildUpdateChange_tuple (old : Row V) :
    ∃ payload named, buildUpdateChange cfg relations relationID (some (table.tuple old))
        (some (table.tuple row)) lsn = .ok (some ⟨site.table, parts, .update, lsn, some payload⟩) ∧
      site.Prints payload named row ∧ (∀ column ∈ named, column ∈ table.columns) ∧
      (∀ column ∈ site.spec.primaryKey, column ∈ named) ∧
      ∀ column ∈ table.columns, column ∉ named → old column = row column := by
  unfold buildUpdateChange
  split
  · refine ⟨_, table.changed old row, ?_, buildUpdateDiffPayload_tuple old row,
      fun column mem => (List.mem_filter.mp mem).1, ?_, ?_⟩
    · unfold buildUpdateDiffChange
      simp only [linked.known, linked.captures, tupleRegionIsLocal_tuple owned, Bool.not_true,
        Bool.false_eq_true, if_false, extracted, lsnToVersion_of_le linked.version]
      rfl
    · intro column inKey
      exact List.mem_filter.mpr ⟨key_mem inKey, by simp [inKey]⟩
    · intro column mem absent
      apply eq_of_tupleColumn_eq mem
      by_contra differs
      exact absent (List.mem_filter.mpr ⟨mem, by simp [differs]⟩)
  · obtain ⟨payload, built, printsRow⟩ := buildWriteChange_tuple linked extracted owned .update
    exact ⟨payload, table.columns, built, printsRow, fun _ mem => mem, fun _ mem => key_mem mem,
      fun _ mem absent => absurd mem absent⟩

theorem buildDeleteChange_tuple :
    buildDeleteChange cfg relations relationID (some (table.tuple row)) lsn =
      .ok (some ⟨site.table, parts, .delete, lsn, none⟩) := by
  unfold buildDeleteChange
  simp only [linked.known, linked.captures, deleteRegionIsLocal_tuple owned]
  simp only [bind, Except.bind, Bool.not_true, Bool.false_eq_true, if_false, extracted,
    lsnToVersion_of_le linked.version]
  rfl

end Linked

end CapturedTable

/-! ## The mirror -/

section Mirror

variable {V : Type} [DecidableEq V] {site : Site V} {table : CapturedTable site}
  {cfg : CaptureConfig} {feed : ChangefeedConfig} {relations : Relations} {relationID lsn : Nat}
  {source : TableRows V} {tables : Tables V}

theorem view_eq_some {target : Option (Row V)} {image : Row V} (viewed : site.view target = some image) :
    ∃ row, target = some row ∧ row site.spec.regionField = some site.owner ∧ site.clip row = image := by
  cases target with
  | none => cases viewed
  | some row =>
    by_cases owned : row site.spec.regionField = some site.owner
    · rw [Site.view_of_owned owned] at viewed
      exact ⟨row, rfl, owned, Option.some.inj viewed⟩
    · rw [Site.view_of_unowned owned] at viewed
      cases viewed

/-- One change under one key on both sides keeps the mirror. -/
theorem Mirrors.change {rows after : TableRows V} (mirrors : Mirrors site source rows) {key : List V}
    {c : Change String (Option V)} (applied : site.Applied rows after [(key, c)])
    {next : TableRows V} (there : site.view (next key) = c.apply (site.view (source key)))
    (elsewhere : ∀ other, other ≠ key → next other = source other) : Mirrors site next after := by
  intro other
  by_cases here : other = key
  · rw [here, there, applied.touched (key, c) (List.mem_singleton_self _), mirrors key]
  · rw [elsewhere other here, mirrors other, applied.untouched other]
    intro d mem
    rw [List.mem_singleton.mp mem]
    exact fun same => here same.symm

/-- The rows under the receiver's keys have those keys. -/
def Keyed (site : Site V) (rows : TableRows V) : Prop :=
  ∀ key row, rows key = some row → site.key row = some key

/-- A row the source has under a key stands in a slot of the mirror. -/
theorem Mirrors.slot {rows : TableRows V} (mirrors : Mirrors site source rows)
    (keyed : Keyed site rows) {key : List V} {row : Row V} (has : source key = some row)
    (owned : row site.spec.regionField = some site.owner) : site.Slot key (rows key) := by
  have viewed := (mirrors key).symm
  rw [has, Site.view_of_owned owned] at viewed
  obtain ⟨target, present, targetOwned, _⟩ := view_eq_some viewed
  rw [present]
  constructor
  · rintro _ ⟨⟩
    exact keyed key target present
  · rintro _ ⟨⟩
    exact Or.inr targetOwned

/-- The event of a built change is applied under its key. -/
theorem applyChange_fits {digest : Bytes → String}
    (linked : table.Linked cfg feed relations relationID lsn) {change : ChangefeedChange}
    {key : List V} (fits : site.Fits (eventOfChange digest feed change) key)
    (slot : site.Slot key (tables site.tableRef key)) :
    site.Applied (tables site.tableRef)
      (applyChange digest feed site (.ok (some change)) tables site.tableRef)
      [(key, site.change (eventOfChange digest feed change))] := by
  let e : site.Event := ⟨eventOfChange digest feed change, key, fits⟩
  have ready : site.Ready [e] (tables site.tableRef) := by
    refine ⟨List.pairwise_singleton _ _, ?_⟩
    intro e' mem
    rw [List.mem_singleton.mp mem]
    exact slot
  obtain ⟨next, ran, applied⟩ := Site.applyEventsBatch_events (Site.told_singleton e) ready
  have result : applyChange digest feed site (.ok (some change)) tables = next := by
    unfold applyChange
    simp only [CapturedTable.handleBatchEvents_single linked]
    rw [show applyEventsBatch site.repo site.server .fullSync [eventOfChange digest feed change]
      tables = .ok next from ran]
  rw [result]
  exact applied

section Told

variable {row old : Row V} {key : List V}

omit [DecidableEq V] in
/-- A row of the peer, cut to the table's columns. -/
theorem image_clip (keyed : site.key row = some key)
    (owned : row site.spec.regionField = some site.owner) : site.Image key (site.clip row) where
  keyed := (Site.key_eq_iff keyed).mpr fun column mem => if_pos (site.key_column column mem)
  owned := (if_pos site.region_column).trans owned
  clipped := Site.clip_eq_of_forall (fun _ _ => rfl) fun _ outside => if_neg outside

omit [DecidableEq V] in
theorem prints_clip {payload : Object} (prints : site.Prints payload table.columns row) :
    site.Prints payload site.columns (site.clip row) where
  only column mem := (table.same column).mp (prints.only column mem)
  gives column mem := by
    rw [Site.clip, if_pos mem]
    exact prints.gives column ((table.same column).mpr mem)

omit [DecidableEq V] in
/-- Laying the columns of an update over the old row gives the new one. -/
theorem overlay_named {named : List String} (inTable : ∀ column ∈ named, column ∈ table.columns)
    (unchanged : ∀ column ∈ table.columns, column ∉ named → old column = row column) :
    overlay (site.clip old) row named = site.clip row := by
  funext column
  unfold overlay
  split
  · next mem => exact (if_pos (CapturedTable.known (inTable column mem))).symm
  · next absent =>
    unfold Site.clip
    split
    · next mem => exact unchanged column ((table.same column).mpr mem) absent
    · rfl

/-- The adapter builds a change of which an event tells what was done to the row. -/
theorem exists_told (linked : table.Linked cfg feed relations relationID lsn) {change : RowChange V}
    (valid : change.Valid site source) (stays : change.KeepsKey) {parts : PrimaryKey}
    (extracted : table.relation.extractPrimaryKey (some (table.tuple change.row)) = .ok parts) :
    ∃ payload done, change.build table cfg relations relationID lsn =
        .ok (some ⟨site.table, parts, change.operation, lsn, payload⟩) ∧
      (∀ event : ReplicationEvent, event.operation = change.operation →
        event.fields = payloadToFields payload → site.Tells event change.key done) ∧
      site.view (change.after source change.key) = done.apply (site.view (source change.key)) ∧
      ∀ other, other ≠ change.key → change.after source other = source other := by
  cases change with
  | insert key row =>
    obtain ⟨_, keyed, owned⟩ := valid
    obtain ⟨payload, built, prints⟩ :=
      CapturedTable.buildWriteChange_tuple linked extracted owned .insert
    refine ⟨_, .put (site.clip row), built, fun event operation fields => ?_, ?_,
      fun other differs => if_neg differs⟩
    · exact ⟨.inl operation, image_clip keyed owned, by rw [fields]; exact prints_clip prints⟩
    · rw [RowChange.after, RowChange.key, setRow, if_pos rfl, Site.view_of_owned owned]
      rfl
  | update oldKey old key row =>
    obtain ⟨has, _, oldOwned, keyed, owned, _⟩ := valid
    obtain rfl : key = oldKey := stays
    obtain ⟨payload, named, built, prints, inTable, keyNamed, unchanged⟩ :=
      CapturedTable.buildUpdateChange_tuple linked extracted owned old
    refine ⟨_, .patch named row, built, fun event operation fields => ?_, ?_, ?_⟩
    · exact ⟨operation, fun column mem => CapturedTable.known (inTable column mem), keyNamed, keyed,
        fun _ => owned, by rw [fields]; exact prints⟩
    · rw [RowChange.after, RowChange.key, setRow, if_pos rfl, has, Site.view_of_owned owned,
        Site.view_of_owned oldOwned]
      exact congrArg some (overlay_named inTable unchanged).symm
    · intro other (differs : other ≠ key)
      rw [RowChange.after, setRow, if_neg differs, setRow, if_neg differs]
  | delete key row =>
    obtain ⟨_, keyed, owned⟩ := valid
    refine ⟨_, .remove, CapturedTable.buildDeleteChange_tuple linked extracted owned,
      fun _ operation _ => operation, ?_, fun other differs => if_neg differs⟩
    rw [RowChange.after, RowChange.key, setRow, if_pos rfl]
    rfl

end Told

section KeyOnly

variable {event : ReplicationEvent} {key : List V} {named : List String} {row : Row V}

/-- An update that names no column outside the key fails for its number of arguments. -/
theorem applyEventsBatch_keyOnly (told : site.TellsUpdate event key named row)
    (ofTable : event.table = site.table) (keyOnly : ∀ column ∈ named, column ∈ site.spec.primaryKey)
    (tables : Tables V) :
    ∃ err, applyEventsBatch site.repo site.server .fullSync [event] tables = .error err := by
  cases result : applyEventsBatch site.repo site.server .fullSync [event] tables with
  | error err => exact ⟨err, rfl⟩
  | ok next =>
    obtain ⟨⟨calls, made, ready⟩, -⟩ := applyEventsBatch_single.mp result
    obtain ⟨skips, -⟩ | ⟨-, spec, tableRef, found, complete, -⟩ := eventCalls_ready made ready
    · cases skips.1
    · rw [ofTable] at found
      cases site.configured.symm.trans found
      simp only [Complete, told.operation] at complete
      refine absurd (List.filter_eq_nil_iff.mpr fun column mem => ?_) complete.2
      simpa using keyOnly column (told.prints.mem_iff.mp (Std.ExtTreeMap.mem_keys.mp mem))

/-- It has changed nothing. -/
theorem patch_keyOnly {rows : TableRows V} (told : site.TellsUpdate event key named row)
    (keyOnly : ∀ column ∈ named, column ∈ site.spec.primaryKey) (slot : site.Slot key (rows key)) :
    (Change.patch named row).apply (site.view (rows key)) = site.view (rows key) := by
  cases viewed : site.view (rows key) with
  | none => rfl
  | some image =>
    obtain ⟨target, present, -, rfl⟩ := view_eq_some viewed
    refine congrArg some (funext fun column => ?_)
    change overlay (site.clip target) row named column = _
    unfold overlay
    split
    · next mem =>
      rw [Site.clip, if_pos (told.known column mem)]
      exact ((Site.key_eq_iff told.keyed).mp (slot.keyed target present) column (keyOnly column mem)).symm
    · rfl

end KeyOnly

/-- The key columns of the new row make a key and keep their values; an inserted row
meets no row of another region. -/
def RowChange.Carried (table : CapturedTable site) (rows : TableRows V) : RowChange V → Prop
  | .insert key row => table.KeyText row ∧ ∀ target, rows key = some target →
      target site.spec.regionField = none ∨ target site.spec.regionField = some site.owner
  | .update oldKey _ key row => table.KeyText row ∧ key = oldKey
  | .delete _ row => table.KeyText row

omit [DecidableEq V] in
theorem RowChange.Valid.keyed {change : RowChange V} (valid : change.Valid site source) :
    site.key change.row = some change.key := by
  cases change with
  | insert => exact valid.2.1
  | update => exact valid.2.2.2.1
  | delete => exact valid.2.1

/-- The change is one the adapter can tell of, about a row in reach of the peer's statements. -/
theorem RowChange.Carried.spec {change : RowChange V} {rows : TableRows V}
    (carried : change.Carried table rows) (valid : change.Valid site source) (keyed : Keyed site rows)
    (mirrors : Mirrors site source rows) :
    table.KeyText change.row ∧ change.KeepsKey ∧ site.Slot change.key (rows change.key) := by
  cases change with
  | insert key row =>
    exact ⟨carried.1, trivial, fun target present => keyed key target present,
      fun target present => carried.2 target present⟩
  | update oldKey old key row =>
    obtain ⟨text, rfl⟩ := carried
    exact ⟨text, rfl, mirrors.slot keyed valid.1 valid.2.2.1⟩
  | delete key row => exact ⟨carried, trivial, mirrors.slot keyed valid.1 valid.2.2⟩

/-- A row change the adapter captures leaves the receiver a mirror of the source. -/
theorem row_change_keeps_mirror (linked : table.Linked cfg feed relations relationID lsn)
    (digest : Bytes → String) {change : RowChange V} (valid : change.Valid site source)
    (carried : change.Carried table (tables site.tableRef))
    (keyed : Keyed site (tables site.tableRef))
    (mirrors : Mirrors site source (tables site.tableRef)) :
    Mirrors site (change.after source) (applyChange digest feed site
      (change.build table cfg relations relationID lsn) tables site.tableRef) := by
  obtain ⟨text, stays, slot⟩ := carried.spec valid keyed mirrors
  obtain ⟨parts, object, extracted, payloadOf, prints⟩ :=
    CapturedTable.extractPrimaryKey_tuple text valid.keyed
  obtain ⟨payload, done, built, tells, there, elsewhere⟩ :=
    exists_told linked valid stays extracted
  have told := tells (eventOfChange digest feed ⟨site.table, parts, change.operation, lsn, payload⟩)
    rfl rfl
  rw [built]
  by_cases named : ∀ named row, done = .patch named row → ∃ column ∈ named, column ∉ site.spec.primaryKey
  · have fits := told.fits rfl linked.feeds ⟨object, _, payloadOf, prints, valid.keyed⟩ named
    exact mirrors.change (applyChange_fits linked fits slot) (there.trans (told.change_apply _).symm)
      elsewhere
  · push Not at named
    obtain ⟨named, row, rfl, keyOnly⟩ := named
    -- nothing is applied, and nothing has changed
    obtain ⟨err, failed⟩ := applyEventsBatch_keyOnly told rfl keyOnly tables
    have kept : applyChange digest feed site
        (.ok (some ⟨site.table, parts, change.operation, lsn, payload⟩)) tables = tables := by
      unfold applyChange
      simp only [CapturedTable.handleBatchEvents_single linked, failed]
    rw [kept]
    intro other
    by_cases here : other = change.key
    · rw [here, there, mirrors change.key, patch_keyOnly told keyOnly slot]
    · rw [elsewhere other here]
      exact mirrors other

end Mirror

namespace Users

theorem configured : tableSpec usersRepository "users" = .ok (usersSpec, "\"users\"") := rfl

theorem region_ne : "eu" ≠ "" := by decide

def site : Site String where
  repo := usersRepository
  server := usersServer
  table := "users"
  spec := usersSpec
  tableRef := "\"users\""
  region := "eu"
  configured := configured
  region_ne := region_ne
  field_ne := usersSpec_field_ne
  key_ne := usersSpec_key_ne
  key_column := by decide
  region_column := by decide
  populate_region := rfl

theorem populate_quote (column text : String) :
    site.server.populate site.tableRef column (Json.quote text) = some (some text) := by
  have notNull : Json.quote text ≠ Json.nullText := nofun
  change (if Json.quote text = Json.nullText then some none
    else (Json.unmarshalString (Json.quote text)).map some) = _
  rw [if_neg notNull, Json.unmarshalString_quote]
  rfl

def table (keyType : PrimaryKeyType) (other : keyType ≠ .integer) : CapturedTable site where
  columns := ["id", "name", "region"]
  nodup := by decide
  same _ := Iff.rfl
  types := (∅ : Std.ExtTreeMap String PrimaryKeyType).insert "id" keyType
  output _ text := text
  populate_null _ _ := rfl
  populate_text column _ text := populate_quote column text
  output_integer column typed := by
    rw [Std.ExtTreeMap.getElem?_insert] at typed
    split at typed
    · exact absurd (Option.some.inj typed) other
    · cases typed
  output_region := rfl

def row (id name region : String) : Row String := fun column =>
  if column = "id" then some id else if column = "name" then some name
  else if column = "region" then some region else none

/-- A table with at most one row. -/
def rows (entry : Option (String × String × String)) : TableRows String := fun key =>
  match entry with
  | none => none
  | some (id, name, region) => if key = [id] then some (row id name region) else none

def relations (keyType : PrimaryKeyType) (other : keyType ≠ .integer) : Relations :=
  (∅ : Relations).insert 1 (table keyType other).relation

/-- The receiver's rows after the change. -/
def replicated (keyType : PrimaryKeyType) (other : keyType ≠ .integer) (lsn : Nat)
    (receiver : Option (String × String × String)) (change : RowChange String) : TableRows String :=
  applyChange (fun _ => "event") usersFeed site
    (change.build (table keyType other) (usersCapture false) (relations keyType other) 1 lsn)
    (fun _ => rows receiver) site.tableRef

/-- The receiver mirrors the source before the change and not after it. -/
def Breaks (keyType : PrimaryKeyType) (other : keyType ≠ .integer) (lsn : Nat)
    (source receiver : Option (String × String × String)) (change : RowChange String) : Prop :=
  change.Valid site (rows source) ∧ Keyed site (rows receiver) ∧
    Mirrors site (rows source) (rows receiver) ∧
    ¬ Mirrors site (change.after (rows source)) (replicated keyType other lsn receiver change)

theorem keyed_rows (entry : Option (String × String × String)) : Keyed site (rows entry) := by
  intro key found present
  unfold rows at present
  split at present
  · cases present
  · split at present
    · next same =>
      cases present
      rw [same]
      rfl
    · cases present

theorem mirrors_of_unowned {entry : String × String × String} (other : entry.2.2 ≠ "eu") :
    Mirrors site (rows none) (rows (some entry)) := by
  intro key
  obtain ⟨id, name, region⟩ := entry
  change none = site.view (if key = [id] then some (row id name region) else none)
  split
  · exact (Site.view_of_unowned fun same => other (Option.some.inj same)).symm
  · rfl

theorem not_mirrors {source receiver : TableRows String} (key : List String)
    (differ : (site.view (source key)).isSome ≠ (site.view (receiver key)).isSome) :
    ¬ Mirrors site source receiver :=
  fun mirrors => differ (congrArg Option.isSome (mirrors key))

end Users

open Users in
/-- Changes that break the mirror: an insert over a row of another region, an update
that moves a row to another key, a key with an empty value, a boolean key, and a WAL
position beyond 63 bits. -/
theorem row_changes_that_break_mirror :
    Breaks .string nofun 100 none (some ("1", "ann", "us")) (.insert ["1"] (row "1" "bob" "eu")) ∧
    Breaks .string nofun 100 (some ("1", "ann", "eu")) (some ("1", "ann", "eu"))
      (.update ["1"] (row "1" "ann" "eu") ["2"] (row "2" "ann" "eu")) ∧
    Breaks .string nofun 100 none none (.insert [""] (row "" "ann" "eu")) ∧
    Breaks .boolean nofun 100 (some ("t", "ann", "eu")) (some ("t", "ann", "eu"))
      (.delete ["t"] (row "t" "ann" "eu")) ∧
    Breaks .string nofun (2 ^ 63) none none (.insert ["1"] (row "1" "ann" "eu")) := by
  refine ⟨⟨⟨rfl, rfl, rfl⟩, keyed_rows _, mirrors_of_unowned (by decide), not_mirrors ["1"] (by decide)⟩,
    ⟨⟨rfl, rfl, rfl, rfl, rfl, Or.inr rfl⟩, keyed_rows _, fun _ => rfl, not_mirrors ["2"] (by decide)⟩,
    ⟨⟨rfl, rfl, rfl⟩, keyed_rows _, fun _ => rfl, not_mirrors [""] (by decide)⟩,
    ⟨⟨rfl, rfl, rfl⟩, keyed_rows _, fun _ => rfl, not_mirrors ["t"] (by decide)⟩,
    ⟨⟨rfl, rfl, rfl⟩, keyed_rows _, fun _ => rfl, not_mirrors ["1"] (by decide)⟩⟩

open Users in
/-- An update in the diff encoding. -/
theorem row_change_keeps_mirror_users :
    let change := RowChange.update ["1"] (row "1" "ann" "eu") ["1"] (row "1" "bob" "eu")
    Mirrors site (rows (some ("1", "ann", "eu"))) (rows (some ("1", "ann", "eu"))) ∧
      Mirrors site (change.after (rows (some ("1", "ann", "eu"))))
        (applyChange (fun _ => "event") usersFeed site
          (change.build (table .string nofun) (usersCapture true) (relations .string nofun) 1 100)
          (fun _ => rows (some ("1", "ann", "eu"))) site.tableRef) := by
  intro change
  have text : (table .string nofun).KeyText (row "1" "bob" "eu") := by
    constructor
    · intro column mem value has
      obtain rfl := List.mem_singleton.mp mem
      cases has
      decide
    · intro column mem
      rw [List.mem_singleton.mp mem]
      decide
  exact ⟨fun _ => rfl, row_change_keeps_mirror
    ⟨rfl, Std.ExtTreeMap.getElem?_insert_self, by decide, rfl, rfl⟩ _
    ⟨rfl, rfl, rfl, rfl, rfl, Or.inl rfl⟩ ⟨text, rfl⟩ (keyed_rows _) fun _ => rfl⟩

end Transmogr

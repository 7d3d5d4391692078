import Transmogr.Mirror
import Transmogr.Ownership

/-! The rows an applied message writes come back through the replication slot of the local
database, and the capture there takes them for changes of its own or of another region. -/
namespace Transmogr

open Sql

variable {V : Type} [DecidableEq V]

omit [DecidableEq V] in
/-- What the WAL says about a row that a statement wrote. -/
def rowChange (key : List V) : Option (Row V) → Option (Row V) → Option (RowChange V)
  | none, some row => some (.insert key row)
  | some old, some row => some (.update key old key row)
  | some old, none => some (.delete key old)
  | none, none => none

/-- The changes of the statements with their tables, and the state they lead to. -/
def rowChanges (server : Server V) :
    List Call → Tables V → Except String (List (String × RowChange V) × Tables V)
  | [], tables => .ok ([], tables)
  | call :: calls, tables => do
    let touched ← touchedKeys server call.1 call.2 tables
    let next ← exec server call.1 call.2 tables
    let (later, final) ← rowChanges server calls next
    let written := touched.filterMap fun key =>
      rowChange key (tables call.1.table key) (next call.1.table key)
    return (written.map (call.1.table, ·) ++ later, final)

/-- The row a change leaves, or the one it deletes. -/
def RowChange.subject : RowChange V → Row V
  | .insert _ row | .update _ _ _ row | .delete _ row => row

/-- The statements of a message that is applied to the store. -/
def inboundCalls (repo : Repository) (region : String) (mode : ReplicationApplyMode)
    (store : Store V) : Inbound → Except String (List Call)
  | .batch batch => do
    let prepared ← prepareEvents mode batch.events
    let ordered := commitOrder batch.kind prepared
    eventCalls repo mode (filterStale (lockCursors store.cursors ordered) ordered)
  | .chunk table rows => snapshotCall repo region table rows

/-- A change that the statement can make to some row of its table. -/
def Written (server : Server V) (call : Call) (change : RowChange V) : Prop :=
  ∃ before key after, Effect server before key call after ∧
    rowChange key (before key) after = some change

section Changes

variable {server : Server V} {calls : List Call} {tables next : Tables V}

theorem rowChanges_of_execAll (ran : execAll server calls tables = .ok next) :
    ∃ changes, rowChanges server calls tables = .ok (changes, next) ∧
      ∀ tableRef change, (tableRef, change) ∈ changes →
        ∃ call ∈ calls, call.1.table = tableRef ∧ Written server call change := by
  induction calls generalizing tables with
  | nil =>
    cases ran
    exact ⟨[], rfl, fun _ _ mem => (nomatch mem)⟩
  | cons call calls ih =>
    obtain ⟨middle, first, rest⟩ := Fallible.bind_eq_ok.mp ran
    obtain ⟨touched, found, accounts⟩ := exec_accounts first
    obtain ⟨later, laterMade, laterWritten⟩ := ih rest
    refine ⟨_, Fallible.bind_eq_ok.mpr ⟨touched, found, Fallible.bind_eq_ok.mpr ⟨middle, first,
      Fallible.bind_eq_ok.mpr ⟨_, laterMade, rfl⟩⟩⟩, ?_⟩
    intro tableRef change mem
    cases List.mem_append.mp mem with
    | inl here =>
      obtain ⟨written, inside, same⟩ := List.mem_map.mp here
      cases same
      obtain ⟨key, hit, changed⟩ := List.mem_filterMap.mp inside
      exact ⟨call, List.mem_cons_self, rfl, _, key, _, accounts.effect key hit, changed⟩
    | inr there =>
      obtain ⟨other, among, found⟩ := laterWritten tableRef change there
      exact ⟨other, List.mem_cons_of_mem call among, found⟩

end Changes

section Calls

variable {repo : Repository} {server : Server V} {region : String} {mode : ReplicationApplyMode}

/-- The sources of an update statement are fields of events about its table. -/
def UpdatesFrom (repo : Repository) (events : List ReplicationEvent) (call : Call) : Prop :=
  ∀ tableRef assignments key owner, call.1 = .update tableRef assignments key owner →
    ∀ payload ∈ call.2.payloads, ∃ event ∈ events, ∃ spec,
      tableSpec repo event.table = .ok (spec, tableRef) ∧ payload = fieldsToPayload event.fields

theorem updatesFrom_partialUpdate {events : List ReplicationEvent} {calls : List Call} {table : String}
    (same : ∀ event ∈ events, event.table = table)
    (made : partialUpdateCall repo events = .ok calls) :
    ∀ call ∈ calls, UpdatesFrom repo events call := by
  obtain ⟨-, rfl⟩ | ⟨first, inside, spec, tableRef, query, found, built, rfl⟩ :=
    partialUpdateCall_cases made
  · exact List.forall_mem_nil _
  · refine List.forall_mem_singleton.mpr ?_
    rintro tableRef' assignments key owner rfl payload sent
    obtain ⟨event, mem, rfl⟩ := List.mem_map.mp sent
    obtain none | ⟨assignments, some⟩ := built
    · cases none
    · cases some
      rw [same first inside, ← same event mem] at found
      exact ⟨event, mem, spec, found, rfl⟩

theorem UpdatesFrom.mono {events more : List ReplicationEvent} {call : Call}
    (within : ∀ event ∈ events, event ∈ more) (updates : UpdatesFrom repo events call) :
    UpdatesFrom repo more call := by
  intro tableRef assignments key owner same payload sent
  obtain ⟨event, mem, found⟩ := updates tableRef assignments key owner same payload sent
  exact ⟨event, within event mem, found⟩

theorem updatesFrom_partialUpdates {events : List ReplicationEvent} {calls : List Call}
    (made : partialUpdateCalls repo mode events = .ok calls) :
    ∀ call ∈ calls, UpdatesFrom repo events call := by
  intro call mem
  obtain ⟨group, grouped, calls, made, mem⟩ := mem_partialUpdateCalls made mem
  -- the group key starts with the table
  have same : ∀ event ∈ group.2, event.table = group.1.1 := fun event member =>
    congrArg Prod.fst ((Grouping.groups_byKey fieldSetKey events group grouped).2 event member)
  exact (updatesFrom_partialUpdate same made call mem).mono fun event member =>
    Grouping.mem_of_mem_groups grouped member

theorem updatesFrom_upsert {events : List ReplicationEvent} {calls : List Call}
    (made : upsertCall repo mode events = .ok calls) : ∀ call ∈ calls, UpdatesFrom repo events call := by
  obtain ⟨-, rfl⟩ | ⟨first, -, spec, tableRef, payloads, data, -, -, -, -, rfl⟩ := upsertCall_cases made
  · exact List.forall_mem_nil _
  · exact List.forall_mem_singleton.mpr fun _ _ _ _ same => (nomatch same)

theorem updatesFrom_delete {events : List ReplicationEvent} {calls : List Call}
    (made : deleteCall repo events = .ok calls) : ∀ call ∈ calls, UpdatesFrom repo events call := by
  obtain ⟨-, rfl⟩ | ⟨first, -, spec, tableRef, -, rfl⟩ := deleteCall_cases made
  · exact List.forall_mem_nil _
  · exact List.forall_mem_singleton.mpr fun _ _ _ _ same => (nomatch same)

theorem updatesFrom_events {events : List ReplicationEvent} {calls : List Call}
    (made : eventCalls repo mode events = .ok calls) : ∀ call ∈ calls, UpdatesFrom repo events call := by
  intro call mem
  obtain ⟨group, grouped, calls, made, mem⟩ := Fallible.mem_of_mapM_flatten made mem
  obtain ⟨upserts, updates, deletes, madeUpserts, madeUpdates, madeDeletes, rfl⟩ :=
    groupCalls_eq_ok.mp made
  have within {keep : ReplicationEvent → Bool} :
      ∀ event ∈ (Grouping.lastPerKey (·.primaryKey) group.2).filter keep, event ∈ events :=
    fun event member => Grouping.mem_of_mem_groups grouped
      (Grouping.mem_of_mem_lastPerKey (List.mem_of_mem_filter member))
  simp only [List.mem_append] at mem
  obtain (upsert | update) | delete := mem
  · exact (updatesFrom_upsert madeUpserts call upsert).mono within
  · exact (updatesFrom_partialUpdates madeUpdates call update).mono within
  · exact (updatesFrom_delete madeDeletes call delete).mono within

/-- Fields that have the region column have the region in it. -/
def ReplicationEvent.NamesRegion (repo : Repository) (server : Server V) (region : String)
    (event : ReplicationEvent) : Prop :=
  ∀ spec tableRef, tableSpec repo event.table = .ok (spec, tableRef) → ∀ raw,
    event.fields[spec.regionField]? = some raw →
      server.populate tableRef spec.regionField raw = some (some (server.ofText region))

/-- Snapshot rows are stamped with the region, whatever they hold. -/
def Inbound.NamesRegion (repo : Repository) (server : Server V) (region : String) : Inbound → Prop
  | .batch sent => ∀ event ∈ sent.events, event.NamesRegion repo server region
  | .chunk .. => True

omit [DecidableEq V] in
theorem defaultOperation_namesRegion {event : ReplicationEvent}
    (names : event.NamesRegion repo server region) :
    (defaultOperation event).NamesRegion repo server region := by
  unfold defaultOperation
  split
  · exact names
  · exact names

/-- A statement on behalf of the region that leaves the rows it writes to the region. -/
structure Attributed (repo : Repository) (server : Server V) (region : String) (call : Call) :
    Prop where
  issued : Issued repo region call
  names : ∃ events, UpdatesFrom repo events call ∧
    ∀ event ∈ events, event.NamesRegion repo server region

theorem batch_executes {batch : Batch} {store next : Store V} (known : region ≠ "")
    (attributed : ∀ event ∈ batch.events, event.peerRegion = region)
    (names : ∀ event ∈ batch.events, event.NamesRegion repo server region)
    (applied : applyBatch repo server mode batch.kind batch.events store = .ok next) :
    ∃ calls, inboundCalls repo region mode store (.batch batch) = .ok calls ∧
      execAll server calls store.tables = .ok next.tables ∧
      ∀ call ∈ calls, Attributed repo server region call := by
  obtain ⟨prepared, prepare, committed⟩ := applyBatch_eq_ok.mp applied
  split at committed
  · next empty =>
    subst committed
    obtain rfl := List.isEmpty_iff.mp empty
    refine ⟨[], Fallible.bind_eq_ok.mpr ⟨[], prepare, ?_⟩, rfl, fun _ mem => (nomatch mem)⟩
    cases batch.kind <;> rfl
  · obtain ⟨tables, ran, rfl⟩ := commit_eq_ok.mp committed
    obtain ⟨calls, made, executed⟩ := executes_events mode _ _ _ ran
    have issued := issued_events known (toApply_attributed attributed prepare) made
    refine ⟨calls, Fallible.bind_eq_ok.mpr ⟨prepared, prepare, made⟩, executed, fun call mem =>
      ⟨issued call mem, _, updatesFrom_events made call mem, ?_⟩⟩
    intro event inside
    have allowed := mem_commitOrder.mp ((filterStale_sublist _ _).subset inside)
    obtain ⟨original, sent, rfl⟩ := prepareEvents_mem prepare allowed
    exact defaultOperation_namesRegion (names original sent)

theorem chunk_executes {table : String} {rows : List SnapshotRow} {tables next : Tables V}
    (known : region ≠ "")
    (applied : applySnapshotChunk repo server region table rows tables = .ok next) :
    ∃ calls, snapshotCall repo region table rows = .ok calls ∧
      execAll server calls tables = .ok next ∧
      ∀ call ∈ calls, Attributed repo server region call := by
  obtain ⟨calls, made, executed⟩ := executes_snapshot region table rows tables next applied
  refine ⟨calls, made, executed, fun call mem => ⟨issued_snapshot known made call mem, [], ?_,
    fun _ inside => (nomatch inside)⟩⟩
  obtain ⟨-, rfl⟩ | ⟨spec, tableRef, payloads, data, -, -, -, -, rfl⟩ := snapshotCall_cases made
  · cases mem
  · cases List.mem_singleton.mp mem
    exact fun _ _ _ _ same => (nomatch same)

/-- The changes of an applied message, each made by a statement on behalf of the region. -/
theorem inbound_changes {message : Inbound} {store next : Store V} (known : region ≠ "")
    (attributed : message.AttributedTo region) (names : message.NamesRegion repo server region)
    (applied : applyInbound repo server region mode store message = .ok next) :
    ∃ calls changes, inboundCalls repo region mode store message = .ok calls ∧
      rowChanges server calls store.tables = .ok (changes, next.tables) ∧
      ∀ tableRef change, (tableRef, change) ∈ changes → ∃ call, call.1.table = tableRef ∧
        Attributed repo server region call ∧ Written server call change := by
  have executes : ∃ calls, inboundCalls repo region mode store message = .ok calls ∧
      execAll server calls store.tables = .ok next.tables ∧
      ∀ call ∈ calls, Attributed repo server region call := by
    cases message with
    | batch batch => exact batch_executes known attributed names applied
    | chunk table rows =>
      obtain ⟨tables, ran, same⟩ := Fallible.bind_eq_ok.mp applied
      cases same
      exact chunk_executes known ran
  obtain ⟨calls, made, executed, each⟩ := executes
  obtain ⟨changes, changed, written⟩ := rowChanges_of_execAll executed
  refine ⟨calls, changes, made, changed, fun tableRef change mem => ?_⟩
  obtain ⟨call, among, here, wrote⟩ := written tableRef change mem
  exact ⟨call, here, each call among, wrote⟩

/-- No owner, or the region. -/
def Unclaimed (server : Server V) (region : String) (owner : Option V) : Prop :=
  owner = none ∨ owner = some (server.ofText region)

omit [DecidableEq V] in
/-- Fields that name the region are read as the region, other fields as NULL. -/
theorem unclaimed_of_namesRegion {event : ReplicationEvent} {spec : TableSpec} {tableRef : String}
    {source : Row V} (found : tableSpec repo event.table = .ok (spec, tableRef))
    (names : event.NamesRegion repo server region)
    (read : populateRecord server tableRef (fieldsToPayload event.fields) = .ok source) :
    Unclaimed server region (source spec.regionField) := by
  unfold fieldsToPayload at read
  split at read
  · cases read
  · simp only [populateRecord] at read
    split at read
    · cases read
      unfold populateRow
      split
      · cases has : event.fields[spec.regionField]? with
        | none => exact .inl rfl
        | some raw =>
          rw [Option.bind_some, names spec tableRef found raw has]
          exact .inr rfl
      · exact .inl rfl
    · cases read

/-- Every row a statement leaves, and every row it deletes, has no owner or the region. -/
theorem Attributed.unclaimed {call : Call} {before : TableRows V} {key : List V}
    {after : Option (Row V)} {field : String} (reads : ReadsRegion repo server region)
    (attributed : Attributed repo server region call) (configured : field ≠ "")
    (same : ∀ table spec, tableSpec repo table = .ok (spec, call.1.table) → spec.regionField = field)
    (written : Effect server before key call after) :
    ∀ row, after.or (before key) = some row → Unclaimed server region (row field) := by
  obtain ⟨issued, events, updates, names⟩ := attributed
  cases issued with
  | @upsert table spec tableRef columns action payloads found stamped gated =>
    obtain rfl := same table spec found
    obtain ⟨named, stamps⟩ := stamped configured
    cases written with
    | insert known sent read _ absent =>
      rintro row ⟨⟩
      exact .inr (insertedRow_region reads found named stamps known sent read)
    | overwrite known sent read _ target allowed =>
      rintro row ⟨⟩
      have region := insertedRow_region reads found named stamps known sent read
      unfold assign
      split
      · exact .inr region
      · -- a region that is part of the key is not assigned, and the gate has compared it
        rw [gated _ _ rfl, ownerRegionCondition_of_ne configured] at allowed
        simp only [ownerAllows, region] at allowed
        split at allowed
        · next null => exact .inl null
        · next owner has => exact .inr (has.trans (beq_iff_eq.mp allowed).symm)
  | @update table spec tableRef assignments payloads found =>
    obtain rfl := same table spec found
    cases written with
    | update sent read _ target allowed =>
      rintro row ⟨⟩
      unfold assign
      split
      · obtain ⟨event, mem, own, located, rfl⟩ := updates _ _ _ _ rfl _ sent
        rw [← same event.table own located]
        exact unclaimed_of_namesRegion located (names event mem) read
      · rw [ownerRegionCondition_of_ne configured, if_pos configured] at allowed
        exact .inr (beq_iff_eq.mp allowed)
  | @delete table spec tableRef payloads found =>
    obtain rfl := same table spec found
    cases written with
    | delete _ _ _ target allowed =>
      intro row present
      rw [Option.none_or, target] at present
      obtain rfl := Option.some.inj present.symm
      rw [ownerRegionCondition_of_ne configured, if_pos configured] at allowed
      cases owner : row spec.regionField with
      | none => exact .inl rfl
      | some value =>
        simp only [regionIsOrNull, regionIs, List.head?_cons, owner, Option.isNone_some,
          Bool.false_or, beq_iff_eq] at allowed
        exact .inr allowed
  | nothing => cases written

end Calls

/-! ## The local slot -/

/-- The slot of the local database: the capture's configuration and the relations it knows,
the relation of each table, the text PostgreSQL prints for the values of a column, and the
values it keeps out of line and leaves out of an update that does not change them. -/
structure Slot (V : Type) where
  cfg : CaptureConfig
  relations : Relations
  relationID : String → Nat
  output : String → String → V → String
  toasted : V → Bool

namespace Slot

variable (slot : Slot V) (server : Server V) (tableRef : String)

def tupleColumn (old : Option (Row V)) (row : Row V) (column : String) : TupleColumn :=
  match row column with
  | none => ⟨.null, ""⟩
  | some value =>
    if slot.toasted value ∧ old.bind (· column) = some value then ⟨.toast, ""⟩
    else ⟨.text, slot.output tableRef column value⟩

/-- The tuple of a row that replaces the old one. -/
def tuple (old : Option (Row V)) (row : Row V) : TupleData :=
  (server.columns tableRef).map (slot.tupleColumn tableRef old row)

/-- What the adapter builds from a change of a table under `REPLICA IDENTITY FULL`. -/
def capture (lsn : Nat) : RowChange V → Except String (Option ChangefeedChange)
  | .insert _ row =>
    buildInsertChange slot.cfg slot.relations (slot.relationID tableRef)
      (some (slot.tuple server tableRef none row)) lsn
  | .update _ old _ row =>
    buildUpdateChange slot.cfg slot.relations (slot.relationID tableRef)
      (some (slot.tuple server tableRef none old)) (some (slot.tuple server tableRef (some old) row)) lsn
  | .delete _ row =>
    buildDeleteChange slot.cfg slot.relations (slot.relationID tableRef)
      (some (slot.tuple server tableRef none row)) lsn

/-- The slot watches the configured tables: each has its region field, the relations come
from their relation messages, and the region is printed as it is written. -/
structure Watches (repo : Repository) (region : String) : Prop where
  localRegion : slot.cfg.localRegion ≠ ""
  regionField : ∀ table spec tableRef, tableSpec repo table = .ok (spec, tableRef) →
    spec.regionField ≠ "" ∧ spec.regionField ∈ server.columns tableRef
  nodup : ∀ tableRef, (server.columns tableRef).Nodup
  resolved : ∀ tableRef relation, slot.relations[slot.relationID tableRef]? = some relation →
    (∃ schema name, resolveRelation slot.cfg schema name (server.columns tableRef) =
        .ok (some relation)) ∧
      ∀ table spec, tableSpec repo table = .ok (spec, tableRef) →
        relation.regionField = spec.regionField
  output : ∀ table spec tableRef, tableSpec repo table = .ok (spec, tableRef) →
    slot.output tableRef spec.regionField (server.ofText region) = region
  toasted : slot.toasted (server.ofText region) = false

variable {slot server tableRef} {repo : Repository} {region : String} {relation : PostgresRelation}
  {table : String} {spec : TableSpec}

theorem capture_unknown (unknown : slot.relations[slot.relationID tableRef]? = none) (lsn : Nat)
    (change : RowChange V) : slot.capture server tableRef lsn change = .ok none := by
  cases change <;>
    simp [capture, buildInsertChange, buildUpdateChange, buildUpdateDiffChange, buildWriteChange,
      buildDeleteChange, unknown]

section Known

variable (watches : slot.Watches server repo region)
  (found : tableSpec repo table = .ok (spec, tableRef))
  (known : slot.relations[slot.relationID tableRef]? = some relation)

include watches found

theorem tupleColumn_region (old : Option (Row V)) {row : Row V}
    (owned : row spec.regionField = some (server.ofText region)) :
    slot.tupleColumn tableRef old row spec.regionField = ⟨.text, region⟩ := by
  simp [tupleColumn, owned, watches.toasted, watches.output table spec tableRef found]

include known

/-- The adapter looks the region up in the column the site keeps it in. -/
theorem column_region (old : Option (Row V)) (row : Row V) :
    relation.regionField = spec.regionField ∧
      relation.column (slot.tuple server tableRef old row) spec.regionField =
        some (slot.tupleColumn tableRef old row spec.regionField) := by
  obtain ⟨⟨schema, name, made⟩, field⟩ := watches.resolved tableRef relation known
  have indexed : ∀ index, relation.columnByName[spec.regionField]? = some index ↔
      (server.columns tableRef)[index]? = some spec.regionField := by
    simp only [resolveRelation] at made
    split at made
    · cases made
    · obtain ⟨types, -, made⟩ := Fallible.bind_eq_ok.mp made
      cases made
      exact fun index => Maps.getElem?_indexes (watches.nodup tableRef)
  obtain ⟨index, there⟩ := List.getElem?_of_mem (watches.regionField table spec tableRef found).2
  refine ⟨field table spec found, ?_⟩
  unfold PostgresRelation.column tuple
  rw [(indexed index).mpr there, Option.bind_some, List.getElem?_map, there]
  rfl

/-- A row without an owner, or of the other region, is not taken for a local one. -/
theorem tupleRegionIsLocal_eq_false (other : region ≠ slot.cfg.localRegion) (old : Option (Row V))
    {row : Row V} (unclaimed : Unclaimed server region (row spec.regionField)) :
    tupleRegionIsLocal relation (some (slot.tuple server tableRef old row)) slot.cfg.localRegion =
      false := by
  obtain ⟨field, column⟩ := column_region watches found known old row
  unfold tupleRegionIsLocal
  split
  · rfl
  · simp only [field, column]
    cases unclaimed with
    | inl null => simp [tupleColumn, null]
    | inr owned => simp [tupleColumn_region watches found old owned, other]

theorem deleteRegionIsLocal_eq_ok (other : region ≠ slot.cfg.localRegion) (old : Option (Row V))
    {row : Row V} (owned : row spec.regionField = some (server.ofText region)) :
    deleteRegionIsLocal relation (some (slot.tuple server tableRef old row)) slot.cfg.localRegion =
      .ok false := by
  obtain ⟨field, column⟩ := column_region watches found known old row
  simp [deleteRegionIsLocal, field, (watches.regionField table spec tableRef found).1,
    watches.localRegion, column, tupleColumn_region watches found old owned, other]

theorem capture_unclaimed (other : region ≠ slot.cfg.localRegion) (lsn : Nat)
    {change : RowChange V} (unclaimed : Unclaimed server region (change.subject spec.regionField))
    (owned : ∀ key row, change = .delete key row → row spec.regionField ≠ none) :
    slot.capture server tableRef lsn change = .ok none := by
  cases change with
  | insert key row =>
    have foreign := tupleRegionIsLocal_eq_false watches found known other none unclaimed
    simp only [RowChange.subject] at foreign
    simp [capture, buildInsertChange, buildWriteChange, known, foreign]
  | update oldKey old key row =>
    have foreign := tupleRegionIsLocal_eq_false watches found known other (some old) unclaimed
    simp only [RowChange.subject] at foreign
    cases diff : slot.cfg.updateDiff with
    | false => simp [capture, buildUpdateChange, diff, buildWriteChange, known, foreign]
    | true => simp [capture, buildUpdateChange, diff, buildUpdateDiffChange, known, foreign]
  | delete key row =>
    have owner := unclaimed.resolve_left (owned key row rfl)
    have foreign := deleteRegionIsLocal_eq_ok watches found known other none owner
    simp only [RowChange.subject] at foreign
    simp only [capture, buildDeleteChange, known, foreign]
    rfl

/-- The old tuple of a row without an owner has no text for the region. -/
theorem capture_disowned (lsn : Nat) (key : List V) {row : Row V} (null : row spec.regionField = none)
    (result : Option ChangefeedChange) :
    slot.capture server tableRef lsn (.delete key row) ≠ .ok result := by
  obtain ⟨field, column⟩ := column_region watches found known none row
  simp [capture, buildDeleteChange, known, deleteRegionIsLocal, field,
    (watches.regionField table spec tableRef found).1, watches.localRegion, column, tupleColumn, null, bind,
    Except.bind]

end Known

end Slot

section Capture

variable {repo : Repository} {server : Server V} {region : String} {slot : Slot V} {call : Call}
  {change : RowChange V}

omit [DecidableEq V] in
theorem rowChange_subject {key : List V} {before after : Option (Row V)}
    (changed : rowChange key before after = some change) :
    after.or before = some change.subject := by
  unfold rowChange at changed
  split at changed <;> cases changed <;> rfl

/-- A statement with an effect is about a configured table. -/
theorem Written.table (issued : Issued repo region call) (written : Written server call change) :
    ∃ table spec, tableSpec repo table = .ok (spec, call.1.table) := by
  obtain ⟨before, key, after, effect, -⟩ := written
  cases issued with
  | upsert found | update found | delete found => exact ⟨_, _, found⟩
  | nothing => cases effect

theorem capture_written (reads : ReadsRegion repo server region)
    (watches : slot.Watches server repo region) (other : region ≠ slot.cfg.localRegion) (lsn : Nat)
    (attributed : Attributed repo server region call) (written : Written server call change)
    (owned : ∀ key row, change = .delete key row → ∀ table spec,
      tableSpec repo table = .ok (spec, call.1.table) → row spec.regionField ≠ none) :
    slot.capture server call.1.table lsn change = .ok none := by
  obtain ⟨table, spec, found⟩ := written.table attributed.issued
  cases known : slot.relations[slot.relationID call.1.table]? with
  | none => exact Slot.capture_unknown known lsn change
  | some relation =>
    -- the relation has one region field, under whatever name the table is configured
    have agree := (watches.resolved call.1.table relation known).2
    have same : ∀ table' spec', tableSpec repo table' = .ok (spec', call.1.table) →
        spec'.regionField = spec.regionField := fun table' spec' found' =>
      (agree table' spec' found').symm.trans (agree table spec found)
    obtain ⟨before, key, after, effect, changed⟩ := written
    refine Slot.capture_unclaimed watches found known other lsn ?_ fun key row deletes =>
      owned key row deletes table spec found
    exact attributed.unclaimed reads (watches.regionField table spec _ found).1 same effect _
      (rowChange_subject changed)

/-- No echo: the local capture passes over a change an applied message of another region makes,
without an error, if and only if it does not know the relation yet or the change is not the delete of a
row that had no owner. -/
theorem applied_changes_are_not_captured {message : Inbound} {mode : ReplicationApplyMode}
    {store next : Store V} (reads : ReadsRegion repo server region) (known : region ≠ "")
    (watches : slot.Watches server repo region) (other : region ≠ slot.cfg.localRegion)
    (attributed : message.AttributedTo region) (names : message.NamesRegion repo server region)
    (applied : applyInbound repo server region mode store message = .ok next) :
    ∃ calls changes, inboundCalls repo region mode store message = .ok calls ∧
      rowChanges server calls store.tables = .ok (changes, next.tables) ∧
      ∀ tableRef change, (tableRef, change) ∈ changes → ∀ lsn,
        (slot.capture server tableRef lsn change = .ok none ↔
          slot.relations[slot.relationID tableRef]? = none ∨
            ∀ key row, change = .delete key row → ∀ table spec,
              tableSpec repo table = .ok (spec, tableRef) → row spec.regionField ≠ none) := by
  obtain ⟨calls, changes, made, changed, each⟩ := inbound_changes known attributed names applied
  refine ⟨calls, changes, made, changed, fun tableRef change mem lsn => ⟨fun passed => ?_, ?_⟩⟩
  · cases cached : slot.relations[slot.relationID tableRef]? with
    | none => exact .inl rfl
    | some relation =>
      refine .inr fun key row deletes table spec found null => ?_
      subst deletes
      exact Slot.capture_disowned watches found cached lsn key null none passed
  · rintro (unknown | owned)
    · exact Slot.capture_unknown unknown lsn change
    · obtain ⟨call, rfl, issued, written⟩ := each tableRef change mem
      exact capture_written reads watches other lsn issued written owned

end Capture

/-- The slot of `eu`, whose capture has seen the relation of the users. -/
def usersSlot (updateDiff : Bool) : Slot String :=
  { cfg := usersCapture updateDiff
    relations :=
      match resolveRelation (usersCapture updateDiff) "public" "users" ["id", "name", "region"] with
      | .ok (some relation) => .ofList [(1, relation)]
      | _ => ∅
    relationID := fun _ => 1
    output := fun _ _ value => value
    toasted := fun _ => false }

/-- The changes that a message of `us` makes to the users. -/
def usersChanges (message : Inbound) :
    Except String (List (String × RowChange String) × Tables String) := do
  let calls ← inboundCalls usersRepository "us" .fullSync ownedUsers message
  rowChanges usersServer calls ownedUsers.tables

def usBatch (operations : List (ReplicationOperation × String)) : Inbound :=
  .batch ⟨.transactionBatch, operations.map fun (operation, id) =>
    { userEvent "us" id 1 "eve" with operation }⟩

/-- `us` deletes the user without an owner, and the capture of `eu` stops at the delete. -/
theorem applied_delete_stops_capture :
    (applyInbound usersRepository usersServer "us" .fullSync ownedUsers
        (usBatch [(.delete, "3")])).toOption.isSome = true ∧
      ∀ updateDiff, (usersChanges (usBatch [(.delete, "3")])).toOption.map (fun made =>
        made.1.map fun change =>
          match (usersSlot updateDiff).capture usersServer change.1 9 change.2 with
          | .ok _ => ""
          | .error err => err) =
        some ["delete event for users: region column \"region\" has data type \"n\" instead of " ++
          "text; REPLICA IDENTITY FULL is required for region-filtered tables"] := by
  refine ⟨by decide, fun updateDiff => ?_⟩
  cases updateDiff <;> rfl

theorem usersSlot_watches (updateDiff : Bool) :
    (usersSlot updateDiff).Watches usersServer usersRepository "us" where
  localRegion := (nofun : "eu" ≠ "")
  regionField table spec tableRef found := by
    obtain rfl := usersRepository_spec found
    exact ⟨by decide, by simp [usersServer, textServer, usersSpec]⟩
  nodup tableRef := by simp [usersServer, textServer]
  resolved tableRef relation known := by
    have same : relation.regionField = "region" ∧ ∃ schema name,
        resolveRelation (usersSlot updateDiff).cfg schema name ["id", "name", "region"] =
          .ok (some relation) := by
      cases known
      exact ⟨rfl, "public", "users", rfl⟩
    refine ⟨same.2, fun table spec found => ?_⟩
    obtain rfl := usersRepository_spec found
    exact same.1
  output table spec tableRef found := rfl
  toasted := rfl

theorem usBatch_namesRegion (operations : List (ReplicationOperation × String)) :
    (usBatch operations).NamesRegion usersRepository usersServer "us" := by
  intro event mem spec tableRef found raw has
  obtain ⟨⟨operation, id⟩, -, rfl⟩ := List.mem_map.mp mem
  obtain rfl := usersRepository_spec found
  have region : (userEvent "us" id 1 "eve").fields["region"]? = some (Json.quote "us") := rfl
  cases region.symm.trans has
  rfl

/-- A deleted row had an owner. -/
def RowChange.ownedUser : RowChange String → Bool
  | .delete _ row => (row "region").isSome
  | _ => true

/-- `us` deletes its own user and the one without an owner, and adds another: the capture passes over
the insert and the first delete, and not over the second. -/
theorem applied_changes_are_not_captured_users :
    ∃ changes final,
      usersChanges (usBatch [(.delete, "2"), (.delete, "3"), (.insert, "4")]) = .ok (changes, final) ∧
      changes.map (·.2.ownedUser) = [true, true, false] ∧
      ∀ tableRef change, (tableRef, change) ∈ changes → ∀ lsn,
        ((usersSlot true).capture usersServer tableRef lsn change = .ok none ↔
          change.ownedUser = true) := by
  obtain ⟨next, applied⟩ := Fallible.exists_ok (show (applyInbound usersRepository usersServer "us"
    .fullSync ownedUsers (usBatch [(.delete, "2"), (.delete, "3"), (.insert, "4")])).toOption.isSome by
      decide)
  obtain ⟨calls, changes, made, changed, passed⟩ :=
    applied_changes_are_not_captured (usersServer_readsRegion "us") (by decide)
      (usersSlot_watches true) (show "us" ≠ "eu" by decide)
      (by simp [usBatch, Inbound.AttributedTo, userEvent]) (usBatch_namesRegion _) applied
  have ran : usersChanges _ = .ok (changes, next.tables) :=
    Fallible.bind_eq_ok.mpr ⟨calls, made, changed⟩
  have owners : (usersChanges (usBatch [(.delete, "2"), (.delete, "3"), (.insert, "4")])).toOption.map
      (fun made => made.1.map fun change => (change.1, change.2.ownedUser)) =
        some [("\"users\"", true), ("\"users\"", true), ("\"users\"", false)] := by decide
  rw [ran] at owners
  have pairs := Option.some.inj owners
  refine ⟨changes, next.tables, ran, ?_, fun tableRef change mem lsn => ?_⟩
  · have seconds := congrArg (List.map Prod.snd) pairs
    rwa [List.map_map] at seconds
  have users : tableRef = "\"users\"" := by
    have inPairs := List.mem_map_of_mem (f := fun change => (change.1, change.2.ownedUser)) mem
    rw [show changes.map (fun change => (change.1, change.2.ownedUser)) = _ from pairs] at inPairs
    simp at inPairs
    exact inPairs.elim (·.1) (·.1)
  rw [passed tableRef change mem lsn, users]
  constructor
  · rintro (unknown | owned)
    · cases unknown
    · cases change with
      | delete key row =>
        exact Option.isSome_iff_ne_none.mpr (owned key row rfl "users" usersSpec rfl)
      | insert | update => rfl
  · rintro owned
    refine .inr ?_
    rintro key row rfl table spec found
    obtain rfl := usersRepository_spec found
    exact Option.isSome_iff_ne_none.mp owned

end Transmogr

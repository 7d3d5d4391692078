import Transmogr.Batching
import Transmogr.Images

/-! Batches of events and snapshot chunks on the rows one peer region owns. -/
namespace Transmogr

open Sql Overwrite

namespace Site

variable {V : Type} [DecidableEq V] {site : Site V}

variable (site) in
/-- An event of the peer's table with the key of the row it is about. -/
structure Event where
  event : ReplicationEvent
  key : List V
  fits : site.Fits event key

namespace Event

def change (e : site.Event) : List V × Change String (Option V) := (e.key, site.change e.event)

def isUpdate (e : site.Event) : Bool := e.event.operation == .update

omit [DecidableEq V] in
theorem put_spec {e : site.Event} (notUpdate : e.event.operation ≠ .update)
    (notDelete : e.event.operation ≠ .delete) :
    e.event.fields.isEmpty = false ∧ site.Whole (site.withRegion e.event.fields) e.key ∧
      e.change = (e.key, .put (site.read (site.withRegion e.event.fields))) := by
  have content := e.fits.content
  unfold change Site.change
  cases operation : e.event.operation with
  | delete => exact absurd operation notDelete
  | update => exact absurd operation notUpdate
  | unset | insert | upsert =>
    rw [operation] at content
    exact ⟨content.1, content.2, rfl⟩

omit [DecidableEq V] in
theorem update_spec {e : site.Event} (update : e.event.operation = .update) :
    site.Piece e.event.fields e.key ∧
      e.change = (e.key, .patch e.event.fields.keys (site.read e.event.fields)) := by
  have content := e.fits.content
  rw [update] at content
  refine ⟨content, ?_⟩
  unfold change Site.change
  rw [update]

omit [DecidableEq V] in
theorem delete_spec {e : site.Event} (delete : e.event.operation = .delete) :
    e.change = (e.key, .remove) := by
  unfold change Site.change
  rw [delete]

end Event

/-- A batch with one event per key meets rows its statements reach. -/
structure Ready (site : Site V) (events : List site.Event) (rows : TableRows V) : Prop where
  distinct : events.Pairwise fun e e' => e.key ≠ e'.key
  slots : ∀ e ∈ events, site.Slot e.key (rows e.key)

omit [DecidableEq V] in
theorem stamp_region (fields : Fields) : stamp site.spec site.region fields = site.withRegion fields := by
  simp [stamp, provenanceValues, site.field_ne, site.region_ne, withRegion]

omit [DecidableEq V] in
theorem keys_of_whole {object object' : Object} {values values' : List V}
    (whole : site.Whole object values) (whole' : site.Whole object' values') : object.keys = object'.keys :=
  Maps.keys_congr fun column => ⟨fun mem => whole'.covers column (whole.known column mem),
    fun mem => whole.covers column (whole'.known column mem)⟩

/-- A statement on rows of the table writes each of them. -/
theorem callWrites_readable {α : Type} {statement : Statement} {texts : List String} {xs : List α}
    {object : α → Object} {key : α → List V} (readable : ∀ x ∈ xs, site.Readable (object x) (key x))
    (inTable : statement.table = site.tableRef)
    (keyed : ∀ x ∈ xs, statement.rowKey site.server (site.read (object x)) = some (key x)) :
    callWrites site.server (statement, ⟨xs.map fun x => some (object x), texts⟩) = xs.map fun x =>
      ⟨(site.tableRef, key x), statement.rowAct site.server texts (site.read (object x))⟩ := by
  rw [Batching.callWrites_join, List.flatMap_map, List.map_eq_flatMap]
  apply List.flatMap_congr
  intro x mem
  rw [Batching.callWrites_single, payloadWrite, inTable, populateRecord_of_readable (readable x mem),
    Except.toOption, Option.bind_some, Statement.rowWrite, keyed x mem]
  rfl

omit [DecidableEq V] in
/-- It is ready if its columns are known. -/
theorem ready_of_readable {α : Type} {statement : Statement} {texts : List String} {xs : List α}
    {object : α → Object} {key : α → List V} (readable : ∀ x ∈ xs, site.Readable (object x) (key x))
    (inTable : statement.table = site.tableRef) (count : 1 + texts.length = statement.placeholders)
    (known : ∀ column ∈ statement.columnNames, column ∈ site.columns)
    (keyed : ∀ x ∈ xs, statement.rowKey site.server (site.read (object x)) = some (key x)) :
    Sql.Ready site.server (statement, ⟨xs.map fun x => some (object x), texts⟩) := by
  refine ⟨count, inTable ▸ known, fun payload sent => ?_⟩
  obtain ⟨x, mem, rfl⟩ := List.mem_map.mp sent
  refine ⟨site.read (object x), inTable ▸ populateRecord_of_readable (readable x mem), ?_⟩
  have addressed := keyed x mem
  cases statement with
  | insert => exact Option.isSome_iff_exists.mpr ⟨_, addressed⟩
  | update | delete | selectNothing => trivial

/-- Writes to the rows of different keys that make the changes. -/
theorem applied_of_run {α : Type} {xs : List α} {change : α → List V × Change String (Option V)}
    {act : α → Option (Row V) → Option (Row V)} {tables next : Tables V}
    (distinct : xs.Pairwise fun x y => (change x).1 ≠ (change y).1)
    (acts : ∀ x ∈ xs, site.Slot (change x).1 (act x (tables site.tableRef (change x).1)) ∧
      site.view (act x (tables site.tableRef (change x).1)) =
        (change x).2.apply (site.view (tables site.tableRef (change x).1)))
    (ran : slots next = Slots.run (slots tables) (xs.map fun x => ⟨(site.tableRef, (change x).1), act x⟩)) :
    site.Applied (tables site.tableRef) (next site.tableRef) (xs.map change) := by
  have apart : Slots.Apart (xs.map fun x => (⟨(site.tableRef, (change x).1), act x⟩ :
      Slots.Write (String × List V) (Option (Row V)))) :=
    List.pairwise_map.mpr (distinct.imp fun differ same => differ (Prod.mk.inj same).2)
  have written : ∀ x ∈ xs, next site.tableRef (change x).1 = act x (tables site.tableRef (change x).1) :=
    fun x mem => (congrFun ran (site.tableRef, (change x).1)).trans
      (Slots.run_of_mem apart (List.mem_map_of_mem mem))
  refine ⟨List.forall_mem_map.mpr fun x mem => ?_, List.forall_mem_map.mpr fun x mem => ?_,
    fun values other => ?_⟩
  · rw [written x mem]
    exact (acts x mem).1
  · rw [written x mem]
    exact (acts x mem).2
  · refine (congrFun ran (site.tableRef, values)).trans (Slots.run_of_absent ?_)
    exact List.forall_mem_map.mpr fun x mem same =>
      other _ (List.mem_map_of_mem mem) (Prod.mk.inj same).2

omit [DecidableEq V] in
theorem insert_keyed {columns : List String} {action : ConflictAction}
    (all : ∀ column, column ∈ columns ↔ column ∈ site.columns) {object : Object} {values : List V}
    (readable : site.Readable object values) :
    (Statement.insert site.tableRef columns site.spec.primaryKey action).rowKey site.server
      (site.read object) = some values :=
  (key_eq_iff readable.key).mpr fun column mem => if_pos ((all column).mpr (site.key_column column mem))

theorem fieldSetKey_injective {event event' : ReplicationEvent}
    (plain : ∀ column ∈ event.fields, ',' ∉ column.toList)
    (plain' : ∀ column ∈ event'.fields, ',' ∉ column.toList)
    (filled : event.fields.keys ≠ []) (filled' : event'.fields.keys ≠ [])
    (same : fieldSetKey event = fieldSetKey event') : event.fields.keys = event'.fields.keys := by
  have split : ∀ {keys : List String}, (∀ column ∈ keys, ',' ∉ column.toList) → keys ≠ [] →
      (String.intercalate "," keys).toList.splitOn ',' = keys.map String.toList := by
    intro keys plain filled
    rw [String.toList_intercalate]
    apply List.splitOn_intercalate
    · intro chars mem
      obtain ⟨column, inKeys, rfl⟩ := List.mem_map.mp mem
      exact plain column inKeys
    · simpa using filled
  have joined : String.intercalate "," event.fields.keys =
      String.intercalate "," event'.fields.keys := congrArg Prod.snd same
  have columns := split (fun column mem => plain column (Std.ExtTreeMap.mem_keys.mp mem)) filled
  rw [joined, split (fun column mem => plain' column (Std.ExtTreeMap.mem_keys.mp mem)) filled']
    at columns
  exact (List.map_injective_iff.mpr (fun _ _ same => String.toList_injective same) columns).symm

/-- The joined field names tell the column sets of the batch's updates apart. -/
def Told (events : List site.Event) : Prop :=
  ∀ e ∈ events, ∀ e' ∈ events, e.isUpdate = true → e'.isUpdate = true →
    fieldSetKey e.event = fieldSetKey e'.event → e.event.fields.keys = e'.event.fields.keys

omit [DecidableEq V] in
theorem told_singleton (e : site.Event) : Told [e] := by
  intro e₁ mem e₂ mem' _ _ _
  rw [List.mem_singleton.mp mem, List.mem_singleton.mp mem']

omit [DecidableEq V] in
theorem told_of_plain (plain : ∀ column ∈ site.columns, ',' ∉ column.toList)
    (events : List site.Event) : Told events := by
  intro e mem e' mem' update update' same
  have piece : ∀ e : site.Event, e.isUpdate = true → site.Piece e.event.fields e.key :=
    fun e update => (Event.update_spec (by simpa [Event.isUpdate] using update)).1
  have names : ∀ e : site.Event, e.isUpdate = true → ∀ column ∈ e.event.fields, ',' ∉ column.toList :=
    fun e update column named => plain column ((piece e update).known column named)
  have filled : ∀ e : site.Event, e.isUpdate = true → e.event.fields.keys ≠ [] := by
    intro e update
    obtain ⟨column, named, _⟩ := (piece e update).named
    exact List.ne_nil_of_mem (Std.ExtTreeMap.mem_keys.mpr named)
  exact fieldSetKey_injective (names e update) (names e' update') (filled e update)
    (filled e' update') same

namespace Event

/-- The event has one statement, on its row. -/
theorem of_call {e : site.Event} {statement : Statement} {object : Object} {texts : List String}
    (complete : Complete site.spec e.event)
    (call : eventCall .fullSync site.spec site.tableRef e.event = (statement, ⟨[some object], texts⟩))
    (readable : site.Readable object e.key) (count : 1 + texts.length = statement.placeholders)
    (known : ∀ column ∈ statement.columnNames, column ∈ site.columns)
    (keyed : statement.rowKey site.server (site.read object) = some e.key) :
    Executable site.repo site.server .fullSync e.event ∧
      eventWrites site.repo site.server .fullSync e.event =
        [⟨(site.tableRef, e.key), statement.rowAct site.server texts (site.read object)⟩] := by
  have made := @eventCalls_of_complete site.repo .fullSync e.event _ _
    (e.fits.table ▸ site.configured) complete (by simp [Skips])
  have inTable : statement.table = site.tableRef := by
    rw [← eventStatement_table .fullSync site.spec site.tableRef e.event]
    exact congrArg (·.1.table) call.symm
  rw [call] at made
  have one : ∀ x ∈ [()], site.Readable object e.key := fun _ _ => readable
  refine ⟨⟨_, made, List.forall_mem_singleton.mpr
    (ready_of_readable one inTable count known fun _ _ => keyed)⟩, ?_⟩
  rw [eventWrites, made, Except.toOption, Option.getD_some, List.flatMap_singleton]
  exact callWrites_readable one inTable fun _ _ => keyed

/-- What the statement of an event makes of its row. -/
theorem writes (e : site.Event) :
    Executable site.repo site.server .fullSync e.event ∧
      ∃ act, eventWrites site.repo site.server .fullSync e.event = [⟨(site.tableRef, e.key), act⟩] ∧
        ∀ target, site.Slot e.key target → site.Slot e.key (act target) ∧
          site.view (act target) = e.change.2.apply (site.view target) := by
  by_cases delete : e.event.operation = .delete
  · obtain ⟨object, payload, readable⟩ := e.fits.parts
    have call : eventCall .fullSync site.spec site.tableRef e.event =
        (.delete site.tableRef site.spec.primaryKey (some site.spec.regionField),
          ⟨[some object], [site.region]⟩) := by
      simp [eventCall, eventStatement, eventPayload, eventTexts, delete, payload, buildBatchDeleteQuery,
        ownerRegionCondition, site.field_ne, e.fits.peerRegion]
    obtain ⟨executable, written⟩ := of_call (by simp [Complete, delete]) call readable rfl
      (List.forall_mem_append.mpr ⟨site.key_column, List.forall_mem_singleton.mpr site.region_column⟩)
      readable.key
    refine ⟨executable, _, written, fun target slot => ?_⟩
    rw [delete_spec delete]
    exact remove_stands slot
  by_cases update : e.event.operation = .update
  · obtain ⟨piece, changes⟩ := update_spec update
    obtain ⟨column, mem, other⟩ := piece.named
    have more : UpdateDiff.updateColumns site.spec e.event.fields ≠ [] :=
      List.ne_nil_of_mem (List.mem_filter.mpr ⟨Std.ExtTreeMap.mem_keys.mpr mem, decide_eq_true other⟩)
    have call : eventCall .fullSync site.spec site.tableRef e.event =
        (.update site.tableRef (UpdateDiff.updateColumns site.spec e.event.fields) site.spec.primaryKey
          (some site.spec.regionField), ⟨[some e.event.fields], [site.region]⟩) := by
      simp [eventCall, eventStatement, eventPayload, eventTexts, update, ownerRegionCondition,
        UpdateDiff.regionTexts, site.field_ne, site.region_ne, e.fits.peerRegion]
    have assigned : ∀ column ∈ UpdateDiff.updateColumns site.spec e.event.fields, column ∈ site.columns :=
      fun column mem => piece.known column (Std.ExtTreeMap.mem_keys.mp (List.mem_filter.mp mem).1)
    obtain ⟨executable, written⟩ := of_call
      (by simpa [Complete, update] using ⟨fieldsToPayload_of_mem mem, more⟩) call piece.toReadable rfl
      (List.forall_mem_append.mpr ⟨List.forall_mem_append.mpr ⟨assigned, site.key_column⟩,
        List.forall_mem_singleton.mpr site.region_column⟩) piece.key
    refine ⟨executable, _, written, fun target slot => ?_⟩
    rw [changes]
    exact patch_stands piece slot
  · obtain ⟨filled, whole, changes⟩ := put_spec update delete
    have all : ∀ column, column ∈ (site.withRegion e.event.fields).keys ↔ column ∈ site.columns :=
      fun column => Std.ExtTreeMap.mem_keys.trans ⟨whole.known column, whole.covers column⟩
    have stamped : stamp site.spec e.event.peerRegion e.event.fields = site.withRegion e.event.fields := by
      rw [e.fits.peerRegion, stamp_region]
    have call : eventCall .fullSync site.spec site.tableRef e.event =
        (.insert site.tableRef (site.withRegion e.event.fields).keys site.spec.primaryKey
          (conflictAction site.spec (site.withRegion e.event.fields).keys true),
            ⟨[some (site.withRegion e.event.fields)], []⟩) := by
      rw [eventCall, eventStatement_put update delete, eventPayload_put update delete,
        eventTexts_put update delete, stamped]
      rfl
    have complete : Complete site.spec e.event := by
      have full : fieldsToPayload e.event.fields = some e.event.fields := by simp [fieldsToPayload, filled]
      have keyed : ∀ column ∈ site.spec.primaryKey,
          column ∈ (stamp site.spec e.event.peerRegion e.event.fields).keys := fun column mem => by
        rw [stamped]
        exact (all column).mpr (site.key_column column mem)
      cases op : e.event.operation <;> simp only [op, not_true] at update delete
      all_goals simpa only [Complete, op] using ⟨full, keyed⟩
    obtain ⟨executable, written⟩ := of_call complete call whole.toReadable rfl
      (fun column => (all column).mp) (insert_keyed all whole.toReadable)
    refine ⟨executable, _, written, fun target slot => ?_⟩
    rw [changes]
    exact put_stands all whole slot

end Event

omit [DecidableEq V] in
theorem key_eq_of_primaryKey {e e' : site.Event} (same : e.event.primaryKey = e'.event.primaryKey) :
    e.key = e'.key := by
  obtain ⟨object, payload, readable⟩ := e.fits.parts
  obtain ⟨object', payload', readable'⟩ := e'.fits.parts
  rw [same, payload', Option.some.injEq] at payload
  rw [payload] at readable'
  exact Option.some_injective _ (readable.key.symm.trans readable'.key)

/-- A batch with one event per key makes every event's change under its key. -/
theorem applyEventsBatch_events {events : List site.Event} (told : Told events) {tables : Tables V}
    (ready : site.Ready events (tables site.tableRef)) :
    ∃ next, applyEventsBatch site.repo site.server .fullSync (events.map Event.event) tables =
        .ok next ∧
      site.Applied (tables site.tableRef) (next site.tableRef) (events.map Event.change) := by
  choose act written acts using fun e : site.Event => e.writes.2
  have flat : (events.map Event.event).flatMap (eventWrites site.repo site.server .fullSync) =
      events.map fun e => ⟨(site.tableRef, e.key), act e⟩ := by
    rw [List.flatMap_map, List.map_eq_flatMap]
    exact List.flatMap_congr fun e _ => written e
  have apart : Slots.Apart ((events.map Event.event).flatMap
      (eventWrites site.repo site.server .fullSync)) := by
    rw [flat, Slots.Apart, List.pairwise_map]
    exact ready.distinct.imp fun differ same => differ (Prod.mk.inj same).2
  have distinct : (events.map Event.event).Pairwise fun event other =>
      event.table = other.table → event.primaryKey ≠ other.primaryKey :=
    List.pairwise_map.mpr (ready.distinct.imp fun differ _ same => differ (key_eq_of_primaryKey same))
  have columns : Batching.OneColumnSet site.repo (events.map Event.event) := by
    intro event mem event' mem' _ _ put put' spec tableRef found
    obtain ⟨e, -, rfl⟩ := List.mem_map.mp mem
    obtain ⟨e', -, rfl⟩ := List.mem_map.mp mem'
    rw [e.fits.table] at found
    cases site.configured.symm.trans found
    rw [e.fits.peerRegion, e'.fits.peerRegion, stamp_region, stamp_region]
    exact keys_of_whole (Event.put_spec put.1 put.2).2.1 (Event.put_spec put'.1 put'.2).2.1
  obtain ⟨next, ran, rows⟩ := @Batching.applyEventsBatch_of_agree V _ site.server site.repo .fullSync
    (events.map Event.event) tables (List.forall_mem_map.mpr fun e _ => e.writes.1) distinct columns apart
    (Batching.agree_of_fieldSets (List.forall_mem_map.mpr fun e mem => List.forall_mem_map.mpr
      fun e' mem' update update' same => (told e mem e' mem' (by simp [Event.isUpdate, update])
        (by simp [Event.isUpdate, update']) same).symm))
  rw [flat] at rows
  exact ⟨next, ran, @applied_of_run V _ site _ events Event.change act tables next ready.distinct
    (fun e mem => acts e _ (ready.slots e mem)) rows⟩

variable (site) in
/-- A row of a snapshot chunk with its key. -/
structure Snapshot where
  row : SnapshotRow
  object : Object
  payload : row.payload = some object
  key : List V
  whole : site.Whole (site.withRegion object) key

def Snapshot.image (snapshot : site.Snapshot) : Row V := site.read (site.withRegion snapshot.object)

omit [DecidableEq V] in
theorem Snapshot.built (snapshot : site.Snapshot) :
    buildUpsertPayload snapshot.row.payload (provenanceValues site.spec site.region) =
      .ok (some (site.withRegion snapshot.object)) := by
  rw [snapshot.payload, buildUpsertPayload_stamp, stamp_region]

theorem applySnapshotChunk_rows {snapshots : List site.Snapshot}
    (distinct : snapshots.Pairwise fun s s' => s.key ≠ s'.key) {tables : Tables V}
    (slots : ∀ s ∈ snapshots, site.Slot s.key (tables site.tableRef s.key)) :
    ∃ next, applySnapshotChunk site.repo site.server site.region site.table
        (snapshots.map Snapshot.row) tables = .ok next ∧
      site.Applied (tables site.tableRef) (next site.tableRef)
        (snapshots.map fun s => (s.key, .put s.image)) := by
  cases snapshots with
  | nil => exact ⟨tables, rfl, .nil _⟩
  | cons first rest =>
    have all : ∀ column, column ∈ (site.withRegion first.object).keys ↔ column ∈ site.columns :=
      fun column => Std.ExtTreeMap.mem_keys.trans ⟨first.whole.known column, first.whole.covers column⟩
    let statement : Statement := .insert site.tableRef (site.withRegion first.object).keys
      site.spec.primaryKey (conflictAction site.spec (site.withRegion first.object).keys true)
    have made : snapshotCall site.repo site.region site.table ((first :: rest).map Snapshot.row) =
        .ok [(statement, ⟨(first :: rest).map fun s => some (site.withRegion s.object), []⟩)] := by
      have sent : ((first :: rest).map Snapshot.row).mapM (fun row =>
          buildUpsertPayload row.payload (provenanceValues site.spec site.region)) =
          .ok ((first :: rest).map fun s => some (site.withRegion s.object)) :=
        List.mapM_map.trans (Fallible.mapM_eq_map fun s _ => s.built)
      refine Fallible.bind_eq_ok.mpr ⟨_, site.configured, Fallible.bind_eq_ok.mpr ⟨_, first.built,
        Fallible.bind_eq_ok.mpr ⟨statement, buildBatchUpsertQuery_eq_ok.mpr ⟨_, rfl, ?_, rfl⟩,
          Fallible.bind_eq_ok.mpr ⟨_, sent, rfl⟩⟩⟩⟩
      exact fun column mem => (all column).mpr (site.key_column column mem)
    have readable : ∀ s ∈ first :: rest, site.Readable (site.withRegion s.object) s.key :=
      fun s _ => s.whole.toReadable
    have keyed : ∀ s ∈ first :: rest, statement.rowKey site.server (site.read (site.withRegion s.object)) =
        some s.key := fun s mem => insert_keyed all (readable s mem)
    have writes := @callWrites_readable V _ site _ statement [] _ _ _ readable rfl keyed
    obtain ⟨next, ran, rows⟩ := @execAll_of_ready V _ site.server _ tables
      (List.forall_mem_singleton.mpr (@ready_of_readable V site _ statement [] _ _ _ readable rfl rfl
        (fun column => (all column).mp) keyed))
      (List.forall_mem_singleton.mpr (by
        rw [writes, Slots.Apart, List.pairwise_map]
        exact distinct.imp fun differ same => differ (Prod.mk.inj same).2))
    rw [List.flatMap_singleton, writes] at rows
    refine ⟨next, (issues_snapshot _ _ _ tables next).mpr ⟨_, made, ran⟩, ?_⟩
    exact @applied_of_run V _ site _ (first :: rest) (fun s => (s.key, .put s.image)) _ tables next distinct
      (fun s mem => put_stands all s.whole (slots s mem)) rows

end Site

end Transmogr

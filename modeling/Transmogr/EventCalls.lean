import Transmogr.RowWrites
import Transmogr.UpdateDiff

/-! The statement of one event, and events applied one after another as writes to their rows. -/
namespace Transmogr

open Sql

/-- In `insert_only` mode an update issues nothing. -/
def Skips (mode : ReplicationApplyMode) (event : ReplicationEvent) : Prop :=
  mode = .insertOnly ∧ event.operation = .update

def eventStatement (mode : ReplicationApplyMode) (spec : TableSpec) (tableRef : String)
    (event : ReplicationEvent) : Statement :=
  match event.operation with
  | .delete => buildBatchDeleteQuery spec tableRef
  | .update => .update tableRef (UpdateDiff.updateColumns spec event.fields) spec.primaryKey
      (ownerRegionCondition spec)
  | .unset | .insert | .upsert =>
    let columns := (stamp spec event.peerRegion event.fields).keys
    .insert tableRef columns spec.primaryKey (conflictAction spec columns (mode ≠ .insertOnly))

def eventPayload (spec : TableSpec) (event : ReplicationEvent) : Option Object :=
  match event.operation with
  | .delete => primaryKeyPayload event.primaryKey
  | .update => some event.fields
  | .unset | .insert | .upsert => some (stamp spec event.peerRegion event.fields)

def eventTexts (spec : TableSpec) (event : ReplicationEvent) : List String :=
  match event.operation with
  | .delete => if spec.regionField ≠ "" then [event.peerRegion] else []
  | .update => UpdateDiff.regionTexts spec event.peerRegion
  | .unset | .insert | .upsert => []

def eventCall (mode : ReplicationApplyMode) (spec : TableSpec) (tableRef : String)
    (event : ReplicationEvent) : Call :=
  (eventStatement mode spec tableRef event, ⟨[eventPayload spec event], eventTexts spec event⟩)

/-- The columns a put sends depend on the names of its fields alone. -/
theorem keys_stamp_congr {spec : TableSpec} {region : String} {fields fields' : Fields}
    (same : fields.keys = fields'.keys) :
    (stamp spec region fields).keys = (stamp spec region fields').keys := by
  apply Maps.keys_congr
  intro column
  rw [mem_stamp, mem_stamp, ← Std.ExtTreeMap.mem_keys, same, Std.ExtTreeMap.mem_keys]

theorem eventPayload_put {spec : TableSpec} {event : ReplicationEvent}
    (notUpdate : event.operation ≠ .update) (notDelete : event.operation ≠ .delete) :
    eventPayload spec event = some (stamp spec event.peerRegion event.fields) := by
  cases op : event.operation <;> simp [eventPayload, op] at notUpdate notDelete ⊢

theorem eventStatement_put {mode : ReplicationApplyMode} {spec : TableSpec} {tableRef : String}
    {event : ReplicationEvent} (notUpdate : event.operation ≠ .update)
    (notDelete : event.operation ≠ .delete) :
    eventStatement mode spec tableRef event =
      .insert tableRef (stamp spec event.peerRegion event.fields).keys spec.primaryKey
        (conflictAction spec (stamp spec event.peerRegion event.fields).keys (mode ≠ .insertOnly)) := by
  cases op : event.operation <;> simp [eventStatement, op] at notUpdate notDelete ⊢

theorem eventTexts_put {spec : TableSpec} {event : ReplicationEvent}
    (notUpdate : event.operation ≠ .update) (notDelete : event.operation ≠ .delete) :
    eventTexts spec event = [] := by
  cases op : event.operation <;> simp [eventTexts, op] at notUpdate notDelete ⊢

theorem eventStatement_table (mode : ReplicationApplyMode) (spec : TableSpec) (tableRef : String)
    (event : ReplicationEvent) : (eventStatement mode spec tableRef event).table = tableRef := by
  cases op : event.operation <;> simp [eventStatement, op, Statement.table, buildBatchDeleteQuery]

section Single

variable {repo : Repository} {mode : ReplicationApplyMode} {event : ReplicationEvent}
  {calls : List Call}

/-- The statements for the operation of one event. -/
def operationCalls (repo : Repository) (mode : ReplicationApplyMode) (event : ReplicationEvent) :
    Except String (List Call) :=
  match event.operation with
  | .delete => deleteCall repo [event]
  | .update => partialUpdateCalls repo mode [event]
  | .unset | .insert | .upsert => upsertCall repo mode [event]

theorem partialUpdateCalls_nil (repo : Repository) (mode : ReplicationApplyMode) :
    partialUpdateCalls repo mode [] = .ok [] := by
  unfold partialUpdateCalls
  split <;> rfl

theorem flatten_mapM_single {α : Type} (calls : α → Except String (List Call)) (x : α) :
    ([x].mapM calls).map List.flatten = calls x := by
  rw [List.mapM_cons, List.mapM_nil]
  cases calls x with
  | error err => rfl
  | ok made => simp [bind, Except.bind, pure, Except.pure, Except.map]

theorem eventCalls_single (repo : Repository) (mode : ReplicationApplyMode) (event : ReplicationEvent) :
    eventCalls repo mode [event] = operationCalls repo mode event := by
  have group : eventCalls repo mode [event] = groupCalls repo mode [event] :=
    flatten_mapM_single (fun group : (String × String) × List ReplicationEvent =>
      groupCalls repo mode (Grouping.lastPerKey (·.primaryKey) group.2)) (_, [event])
  rw [group, groupCalls, operationCalls]
  cases op : event.operation with
  | delete =>
    simp only [List.filter_cons, List.filter_nil, op]
    cases made : deleteCall repo [event] <;>
      simp [made, upsertCall, partialUpdateCalls_nil, bind, Except.bind, pure, Except.pure]
  | update =>
    simp only [List.filter_cons, List.filter_nil, op]
    cases made : partialUpdateCalls repo mode [event] <;>
      simp [made, upsertCall, deleteCall, bind, Except.bind, pure, Except.pure]
  | unset | insert | upsert =>
    simp only [List.filter_cons, List.filter_nil, op]
    cases made : upsertCall repo mode [event] <;>
      simp [made, partialUpdateCalls_nil, deleteCall, bind, Except.bind, pure, Except.pure]

theorem fieldsToPayload_cases (fields : Fields) :
    fieldsToPayload fields = none ∨ fieldsToPayload fields = some fields := by
  unfold fieldsToPayload
  split
  · exact .inl rfl
  · exact .inr rfl

/-- A put without fields has no statement. -/
theorem upsertCall_single (made : upsertCall repo mode [event] = .ok calls) :
    ∃ spec tableRef, tableSpec repo event.table = .ok (spec, tableRef) ∧
      fieldsToPayload event.fields = some event.fields ∧
      (∀ column ∈ spec.primaryKey, column ∈ (stamp spec event.peerRegion event.fields).keys) ∧
      calls = [(.insert tableRef (stamp spec event.peerRegion event.fields).keys spec.primaryKey
        (conflictAction spec (stamp spec event.peerRegion event.fields).keys (mode ≠ .insertOnly)),
        ⟨[some (stamp spec event.peerRegion event.fields)], []⟩)] := by
  obtain ⟨⟨spec, tableRef⟩, found, made⟩ := Fallible.bind_eq_ok.mp made
  obtain ⟨payloads, filled, made⟩ := Fallible.bind_eq_ok.mp made
  obtain ⟨query, built, made⟩ := Fallible.bind_eq_ok.mp made
  cases made
  cases Fallible.mapM_eq_ok.mp filled with
  | cons stamped rest =>
    cases rest
    obtain ⟨data, rfl, keyed, rfl⟩ := buildBatchUpsertQuery_eq_ok.mp built
    rcases fieldsToPayload_cases event.fields with empty | full
    · rw [empty, buildUpsertPayload] at stamped
      split at stamped <;> cases stamped
    · rw [full, buildUpsertPayload_stamp] at stamped
      cases stamped
      exact ⟨spec, tableRef, found, full, keyed, rfl⟩

theorem partialUpdateCalls_single (updates : mode ≠ .insertOnly) :
    partialUpdateCalls repo mode [event] = partialUpdateCall repo [event] :=
  (if_neg updates).trans (flatten_mapM_single
    (fun group : (String × String) × List ReplicationEvent => partialUpdateCall repo group.2)
    (_, [event]))

variable {V : Type} {server : Server V}

/-- The statement without rows cannot be executed with the payload. -/
theorem partialUpdateCall_single (made : partialUpdateCall repo [event] = .ok calls)
    (ready : ∀ call ∈ calls, Ready server call) :
    ∃ spec tableRef, tableSpec repo event.table = .ok (spec, tableRef) ∧
      fieldsToPayload event.fields = some event.fields ∧
      UpdateDiff.updateColumns spec event.fields ≠ [] ∧
      calls = [(.update tableRef (UpdateDiff.updateColumns spec event.fields) spec.primaryKey
        (ownerRegionCondition spec),
        ⟨[some event.fields], UpdateDiff.regionTexts spec event.peerRegion⟩)] := by
  obtain ⟨⟨spec, tableRef⟩, found, made⟩ := Fallible.bind_eq_ok.mp made
  obtain ⟨query, built, made⟩ := Fallible.bind_eq_ok.mp made
  cases made
  rcases fieldsToPayload_cases event.fields with empty | full
  · simp [empty, buildBatchPartialUpdateQuery] at built
  · simp only [full, List.map_cons, List.map_nil, List.head?_cons, Option.join_some] at built ready
    by_cases more : UpdateDiff.updateColumns spec event.fields = []
    · rw [UpdateDiff.buildBatchPartialUpdateQuery_keyOnly more] at built
      cases built
      have count := (ready _ List.mem_cons_self).count
      simp [Args.count, Statement.placeholders] at count
    · rw [UpdateDiff.buildBatchPartialUpdateQuery_more more] at built
      cases built
      refine ⟨spec, tableRef, found, full, more, ?_⟩
      rw [List.map_cons, List.map_nil, full]
      rfl

/-- What the payloads of an event need for its statement to be built. -/
def Complete (spec : TableSpec) (event : ReplicationEvent) : Prop :=
  match event.operation with
  | .delete => True
  | .update => fieldsToPayload event.fields = some event.fields ∧
      UpdateDiff.updateColumns spec event.fields ≠ []
  | .unset | .insert | .upsert => fieldsToPayload event.fields = some event.fields ∧
      ∀ column ∈ spec.primaryKey, column ∈ (stamp spec event.peerRegion event.fields).keys

theorem Complete.filled {spec : TableSpec} (complete : Complete spec event)
    (notDelete : event.operation ≠ .delete) : fieldsToPayload event.fields = some event.fields := by
  cases op : event.operation <;> simp only [Complete, op, ne_eq, not_true] at complete notDelete
  all_goals exact complete.1

theorem Complete.put {spec : TableSpec} (complete : Complete spec event)
    (notUpdate : event.operation ≠ .update) (notDelete : event.operation ≠ .delete) :
    ∀ column ∈ spec.primaryKey, column ∈ (stamp spec event.peerRegion event.fields).keys := by
  cases op : event.operation <;> simp only [Complete, op, ne_eq, not_true] at complete notUpdate notDelete
  all_goals exact complete.2

/-- An event that has what its statement needs has that one. -/
theorem eventCalls_of_complete {spec : TableSpec} {tableRef : String}
    (found : tableSpec repo event.table = .ok (spec, tableRef)) (complete : Complete spec event)
    (issues : ¬Skips mode event) :
    eventCalls repo mode [event] = .ok [eventCall mode spec tableRef event] := by
  rw [eventCalls_single, operationCalls]
  cases op : event.operation with
  | delete =>
    simp [deleteCall, found, bind, Except.bind, pure, Except.pure, eventCall, eventStatement,
      eventPayload, eventTexts, op]
  | update =>
    simp only [Complete, op] at complete
    have updates : mode ≠ .insertOnly := fun only => issues ⟨only, op⟩
    simp only [partialUpdateCalls_single updates, partialUpdateCall, found, complete.1, bind, Except.bind,
      List.map_cons, List.map_nil, List.head?_cons, Option.join_some,
      UpdateDiff.buildBatchPartialUpdateQuery_more complete.2, pure, Except.pure, eventCall, eventStatement,
      eventPayload, eventTexts, op, UpdateDiff.regionTexts]
  | unset | insert | upsert =>
    simp only [Complete, op] at complete
    have payloads : [event].mapM (fun event => buildUpsertPayload (fieldsToPayload event.fields)
        (provenanceValues spec event.peerRegion)) =
          .ok [some (stamp spec event.peerRegion event.fields)] := by
      rw [List.mapM_cons, List.mapM_nil, complete.1, buildUpsertPayload_stamp]
      rfl
    refine Fallible.bind_eq_ok.mpr ⟨_, found, Fallible.bind_eq_ok.mpr ⟨_, payloads,
      Fallible.bind_eq_ok.mpr ⟨_, buildBatchUpsertQuery_eq_ok.mpr ⟨_, rfl, complete.2, rfl⟩, ?_⟩⟩⟩
    simp [pure, Except.pure, eventCall, eventStatement, eventPayload, eventTexts, op]

/-- An event whose statements can be executed is skipped or has one statement on one row. -/
theorem eventCalls_ready (made : eventCalls repo mode [event] = .ok calls)
    (ready : ∀ call ∈ calls, Ready server call) :
    (Skips mode event ∧ calls = []) ∨ (¬Skips mode event ∧ ∃ spec tableRef,
      tableSpec repo event.table = .ok (spec, tableRef) ∧ Complete spec event ∧
      calls = [eventCall mode spec tableRef event]) := by
  rw [eventCalls_single, operationCalls] at made
  cases op : event.operation with
  | delete =>
    simp only [op] at made
    obtain ⟨⟨spec, tableRef⟩, found, made⟩ := Fallible.bind_eq_ok.mp made
    cases made
    refine .inr ⟨by simp [Skips, op], spec, tableRef, found, by simp [Complete, op], ?_⟩
    simp [eventCall, eventStatement, eventPayload, eventTexts, op]
  | update =>
    simp only [op] at made
    by_cases skips : mode = .insertOnly
    · cases (if_pos skips).symm.trans made
      exact .inl ⟨⟨skips, op⟩, rfl⟩
    · rw [partialUpdateCalls_single skips] at made
      obtain ⟨spec, tableRef, found, full, more, rfl⟩ := partialUpdateCall_single made ready
      refine .inr ⟨fun both => skips both.1, spec, tableRef, found, ?_, ?_⟩
      · simp [Complete, op, full, more]
      · simp [eventCall, eventStatement, eventPayload, eventTexts, op]
  | unset | insert | upsert =>
    simp only [op] at made
    obtain ⟨spec, tableRef, found, full, keyed, rfl⟩ := upsertCall_single made
    refine .inr ⟨by simp [Skips, op], spec, tableRef, found, ?_, ?_⟩
    · simpa [Complete, op, full] using keyed
    · simp [eventCall, eventStatement, eventPayload, eventTexts, op]

end Single

section Each

variable {V : Type} [DecidableEq V] (repo : Repository) (server : Server V)
  (mode : ReplicationApplyMode)

/-- Each event is a batch of its own. -/
def applyEach (events : List ReplicationEvent) (tables : Tables V) : Except String (Tables V) :=
  events.foldlM (fun tables event => applyEventsBatch repo server mode [event] tables) tables

def Executable (event : ReplicationEvent) : Prop :=
  ∃ calls, eventCalls repo mode [event] = .ok calls ∧ ∀ call ∈ calls, Ready server call

/-- What an event writes, at most one row. -/
def eventWrites (event : ReplicationEvent) :
    List (Slots.Write (String × List V) (Option (Row V))) :=
  ((eventCalls repo mode [event]).toOption.getD []).flatMap (callWrites server)

variable {repo server mode} {event : ReplicationEvent} {events : List ReplicationEvent}
  {calls : List Call} {tables final : Tables V}

theorem apart_eventCall (spec : TableSpec) (tableRef : String) (event : ReplicationEvent) :
    Slots.Apart (callWrites server (eventCall mode spec tableRef event)) := by
  unfold callWrites rowWrites eventCall
  simp only [List.filterMap_cons, List.filterMap_nil]
  cases payloadWrite server (eventStatement mode spec tableRef event) (eventTexts spec event)
    (eventPayload spec event)
  · exact .nil
  · exact List.pairwise_singleton _ _

theorem apart_eventCalls (made : eventCalls repo mode [event] = .ok calls)
    (ready : ∀ call ∈ calls, Ready server call) :
    ∀ call ∈ calls, Slots.Apart (callWrites server call) := by
  intro call mem
  obtain ⟨-, rfl⟩ | ⟨-, spec, tableRef, -, -, rfl⟩ := eventCalls_ready made ready
  · cases mem
  · cases List.mem_singleton.mp mem
    exact apart_eventCall spec tableRef event

theorem applyEventsBatch_single :
    applyEventsBatch repo server mode [event] tables = .ok final ↔
      Executable repo server mode event ∧
        slots final = Slots.run (slots tables) (eventWrites repo server mode event) := by
  refine (issues_events mode [event] tables final).trans ?_
  constructor
  · rintro ⟨calls, made, ran⟩
    have ready := execAll_ready ran
    refine ⟨⟨calls, made, ready⟩, ?_⟩
    rw [eventWrites, made]
    exact ((execAll_eq_ok (apart_eventCalls made ready)).mp ran).2
  · rintro ⟨⟨calls, made, ready⟩, rows⟩
    refine ⟨calls, made, (execAll_eq_ok (apart_eventCalls made ready)).mpr ⟨ready, ?_⟩⟩
    rwa [eventWrites, made] at rows

theorem applyEach_eq_ok :
    applyEach repo server mode events tables = .ok final ↔
      (∀ event ∈ events, Executable repo server mode event) ∧
        slots final = Slots.run (slots tables) (events.flatMap (eventWrites repo server mode)) := by
  induction events generalizing tables with
  | nil =>
    constructor
    · rintro ⟨⟩
      exact ⟨nofun, rfl⟩
    · rintro ⟨-, rows⟩
      rw [slots_injective rows]
      rfl
  | cons event rest ih =>
    rw [List.forall_mem_cons, List.flatMap_cons, Slots.run_append]
    refine Fallible.bind_eq_ok.trans ?_
    constructor
    · rintro ⟨middle, first, later⟩
      obtain ⟨executable, written⟩ := applyEventsBatch_single.mp first
      obtain ⟨executables, rows⟩ := ih.mp later
      rw [written] at rows
      exact ⟨⟨executable, executables⟩, rows⟩
    · rintro ⟨⟨executable, executables⟩, rows⟩
      have written : slots (fun table key => Slots.run (slots tables)
          (eventWrites repo server mode event) (table, key)) =
          Slots.run (slots tables) (eventWrites repo server mode event) := rfl
      refine ⟨_, applyEventsBatch_single.mpr ⟨executable, written⟩, ih.mpr ⟨executables, ?_⟩⟩
      rw [written]
      exact rows

end Each

def addedUser : ReplicationEvent := { userEvent "us" "1" 1 "ann" with operation := .insert }

def renamedUser : ReplicationEvent := { userEvent "us" "1" 2 "bob" with operation := .update }

def deletedUser : ReplicationEvent :=
  { userEvent "us" "1" 3 "" with operation := .delete, fields := ∅ }

def annOnly : Tables String := fun _ key =>
  if key = ["1"] then
    some fun column => if column = "id" then some "1" else if column = "name" then some "ann" else some "us"
  else none

end Transmogr

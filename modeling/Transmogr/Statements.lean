import Transmogr.Apply
import Transmogr.Effects

/-! The SQL statements the apply functions issue, whatever events and rows they are given. -/
namespace Transmogr

open Sql

section Calls

variable (repo : Repository)

def upsertCall (mode : ReplicationApplyMode) (events : List ReplicationEvent) :
    Except String (List Call) :=
  match events with
  | [] => .ok []
  | first :: _ => do
    let (spec, tableRef) ← tableSpec repo first.table
    let payloads ← events.mapM fun event =>
      buildUpsertPayload (fieldsToPayload event.fields) (provenanceValues spec first.peerRegion)
    let query ← buildBatchUpsertQuery spec tableRef payloads.head?.join (mode ≠ .insertOnly)
    return [(query, ⟨payloads, []⟩)]

def partialUpdateCall (events : List ReplicationEvent) : Except String (List Call) :=
  match events with
  | [] => .ok []
  | first :: _ => do
    let (spec, tableRef) ← tableSpec repo first.table
    let payloads := events.map fun event => fieldsToPayload event.fields
    let query ← buildBatchPartialUpdateQuery spec tableRef payloads.head?.join
    return [(query, ⟨payloads,
      if spec.regionField ≠ "" ∧ first.peerRegion ≠ "" then [first.peerRegion] else []⟩)]

def partialUpdateCalls (mode : ReplicationApplyMode) (events : List ReplicationEvent) :
    Except String (List Call) :=
  if mode = .insertOnly then .ok []
  else ((Grouping.groups fieldSetKey events).mapM fun group => partialUpdateCall repo group.2).map
    List.flatten

def deleteCall (events : List ReplicationEvent) : Except String (List Call) :=
  match events with
  | [] => .ok []
  | first :: _ => do
    let (spec, tableRef) ← tableSpec repo first.table
    return [(buildBatchDeleteQuery spec tableRef,
      ⟨events.map fun event => primaryKeyPayload event.primaryKey,
        if spec.regionField ≠ "" then [first.peerRegion] else []⟩)]

def groupCalls (mode : ReplicationApplyMode) (events : List ReplicationEvent) :
    Except String (List Call) := do
  let upserts ← upsertCall repo mode
    (events.filter fun event => event.operation != .delete && event.operation != .update)
  let updates ← partialUpdateCalls repo mode (events.filter fun event => event.operation == .update)
  let deletes ← deleteCall repo (events.filter fun event => event.operation == .delete)
  return upserts ++ updates ++ deletes

/-- The statements of `applyEventsBatch`, in order. -/
def eventCalls (mode : ReplicationApplyMode) (events : List ReplicationEvent) :
    Except String (List Call) :=
  ((Grouping.groups (fun event => (event.peerRegion, event.table)) events).mapM fun group =>
    groupCalls repo mode (Grouping.lastPerKey (·.primaryKey) group.2)).map List.flatten

/-- The statement of `ApplySnapshotChunk`. -/
def snapshotCall (peerRegion table : String) (rows : List SnapshotRow) : Except String (List Call) :=
  match rows with
  | [] => .ok []
  | first :: _ => do
    let (spec, tableRef) ← tableSpec repo table
    let provenance := provenanceValues spec peerRegion
    let samplePayload ← buildUpsertPayload first.payload provenance
    let query ← buildBatchUpsertQuery spec tableRef samplePayload true
    let payloads ← rows.mapM fun row => buildUpsertPayload row.payload provenance
    return [(query, ⟨payloads, []⟩)]

end Calls

variable {V : Type} [DecidableEq V]

def execAll (server : Server V) (calls : List Call) (tables : Tables V) : Except String (Tables V) :=
  calls.foldlM (fun tables call => exec server call.1 call.2 tables) tables

/-- The function succeeds by executing the statements. -/
def Executes (server : Server V) (calls : Except String (List Call))
    (run : Tables V → Except String (Tables V)) : Prop :=
  ∀ tables next, run tables = .ok next → ∃ issued, calls = .ok issued ∧
    execAll server issued tables = .ok next

/-- The function succeeds exactly if its statements can be built and executed. -/
def Issues (server : Server V) (calls : Except String (List Call))
    (run : Tables V → Except String (Tables V)) : Prop :=
  ∀ tables next, run tables = .ok next ↔ ∃ issued, calls = .ok issued ∧
    execAll server issued tables = .ok next

section Issues

variable {server : Server V} {repo : Repository}

theorem execAll_single (call : Call) (tables : Tables V) :
    execAll server [call] tables = exec server call.1 call.2 tables := by
  unfold execAll
  rw [List.foldlM_cons]
  exact bind_pure _

theorem execAll_append {first second : List Call} {tables next : Tables V} :
    execAll server (first ++ second) tables = .ok next ↔ ∃ middle,
      execAll server first tables = .ok middle ∧ execAll server second middle = .ok next := by
  unfold execAll
  rw [List.foldlM_append, Fallible.bind_eq_ok]

theorem Issues.none : Issues server (.ok []) (fun tables => .ok tables) := by
  intro tables next
  constructor
  · rintro ⟨⟩
    exact ⟨[], rfl, rfl⟩
  · rintro ⟨_, ⟨⟩, ran⟩
    exact ran

/-- A function that executes one statement. -/
theorem Issues.single (context : String) (call : Call) :
    Issues server (.ok [call]) (fun tables => wrapError context (exec server call.1 call.2 tables)) := by
  intro tables next
  rw [wrapError_eq_ok, ← execAll_single]
  constructor
  · exact fun ran => ⟨[call], rfl, ran⟩
  · rintro ⟨_, ⟨⟩, ran⟩
    exact ran

/-- What is computed before the statements does not depend on the tables. -/
theorem Issues.bind {α : Type} {x : Except String α} {calls : α → Except String (List Call)}
    {run : α → Tables V → Except String (Tables V)}
    (each : ∀ a, x = .ok a → Issues server (calls a) (run a)) :
    Issues server (x >>= calls) (fun tables => x >>= fun a => run a tables) := by
  intro tables next
  simp only [Fallible.bind_eq_ok]
  constructor
  · rintro ⟨a, computed, ran⟩
    obtain ⟨issued, made, executed⟩ := (each a computed tables next).mp ran
    exact ⟨issued, ⟨a, computed, made⟩, executed⟩
  · rintro ⟨issued, ⟨a, computed, made⟩, executed⟩
    exact ⟨a, computed, (each a computed tables next).mpr ⟨issued, made, executed⟩⟩

theorem Issues.append {first second : Except String (List Call)}
    {run run' : Tables V → Except String (Tables V)} (one : Issues server first run)
    (two : Issues server second run') :
    Issues server (do return (← first) ++ (← second)) (fun tables => run tables >>= run') := by
  intro tables next
  simp only [Fallible.bind_eq_ok]
  constructor
  · rintro ⟨middle, ran, ran'⟩
    obtain ⟨issued, made, executed⟩ := (one tables middle).mp ran
    obtain ⟨issued', made', executed'⟩ := (two middle next).mp ran'
    exact ⟨_, ⟨issued, made, issued', made', rfl⟩, execAll_append.mpr ⟨middle, executed, executed'⟩⟩
  · rintro ⟨_, ⟨issued, made, issued', made', ⟨⟩⟩, executed⟩
    obtain ⟨middle, first, second⟩ := execAll_append.mp executed
    exact ⟨middle, (one tables middle).mpr ⟨issued, made, first⟩,
      (two middle next).mpr ⟨issued', made', second⟩⟩

/-- Groups that execute their statements one after the other. -/
theorem Issues.flatten {α : Type} {xs : List α} {calls : α → Except String (List Call)}
    {run : Tables V → α → Except String (Tables V)}
    (each : ∀ x ∈ xs, Issues server (calls x) (run · x)) :
    Issues server ((xs.mapM calls).map List.flatten) (fun tables => xs.foldlM run tables) := by
  induction xs with
  | nil => exact .none
  | cons x xs ih =>
    obtain ⟨head, tail⟩ := List.forall_mem_cons.mp each
    have made : ((x :: xs).mapM calls).map List.flatten =
        (do return (← calls x) ++ (← (xs.mapM calls).map List.flatten)) := by
      rw [List.mapM_cons]
      cases calls x with
      | error err => rfl
      | ok first => cases xs.mapM calls <;> rfl
    rw [made]
    exact head.append (ih tail)

theorem issues_upsert (mode : ReplicationApplyMode) (events : List ReplicationEvent) :
    Issues server (upsertCall repo mode events) (applyUpsertBatch repo server mode events) := by
  cases events with
  | nil => exact .none
  | cons first rest =>
    apply Issues.bind
    intro found _
    apply Issues.bind
    intro payloads _
    apply Issues.bind
    intro query _
    exact .single _ (query, ⟨payloads, []⟩)

theorem issues_partialUpdate (events : List ReplicationEvent) :
    Issues server (partialUpdateCall repo events) (applyPartialUpdateGroup repo server events) := by
  cases events with
  | nil => exact .none
  | cons first rest =>
    apply Issues.bind
    intro found _
    apply Issues.bind
    intro query _
    exact .single _ (query, ⟨_, _⟩)

theorem issues_partialUpdates (mode : ReplicationApplyMode) (events : List ReplicationEvent) :
    Issues server (partialUpdateCalls repo mode events)
      (applyPartialUpdateBatch repo server mode events) := by
  unfold partialUpdateCalls applyPartialUpdateBatch
  by_cases insertOnly : mode = .insertOnly
  · simp only [if_pos insertOnly]
    exact .none
  · simp only [if_neg insertOnly]
    exact Issues.flatten fun group _ => issues_partialUpdate group.2

theorem issues_delete (events : List ReplicationEvent) :
    Issues server (deleteCall repo events) (applyDeleteBatch repo server events) := by
  cases events with
  | nil => exact .none
  | cons first rest =>
    apply Issues.bind
    intro found _
    exact .single _ (buildBatchDeleteQuery found.1 found.2, ⟨_, _⟩)

theorem applyPartialUpdateBatch_nil (mode : ReplicationApplyMode) (tables : Tables V) :
    applyPartialUpdateBatch repo server mode [] tables = .ok tables := by
  unfold applyPartialUpdateBatch
  split <;> rfl

/-- The upserts, then the updates, then the deletes. -/
theorem applyGroup_eq_ok {mode : ReplicationApplyMode} {events : List ReplicationEvent}
    {tables next : Tables V} :
    applyGroup repo server mode events tables = .ok next ↔
      ∃ put, applyUpsertBatch repo server mode (events.filter fun event =>
          event.operation != .delete && event.operation != .update) tables = .ok put ∧
      ∃ updated, applyPartialUpdateBatch repo server mode (events.filter fun event =>
          event.operation == .update) put = .ok updated ∧
        applyDeleteBatch repo server (events.filter fun event => event.operation == .delete) updated =
          .ok next := by
  simp only [applyGroup, Fallible.bind_eq_ok]
  refine exists_congr fun put => and_congr_right fun _ => ?_
  split
  · next none =>
    rw [List.isEmpty_iff.mp none, applyPartialUpdateBatch_nil]
    simp only [Fallible.bind_eq_ok]
  · exact Fallible.bind_eq_ok

theorem issues_group (mode : ReplicationApplyMode) (events : List ReplicationEvent) :
    Issues server (groupCalls repo mode events) (applyGroup repo server mode events) := by
  intro tables next
  rw [applyGroup_eq_ok]
  simp only [groupCalls, Fallible.bind_eq_ok]
  constructor
  · rintro ⟨put, ranPuts, updated, ranUpdates, ranDeletes⟩
    obtain ⟨puts, madePuts, donePuts⟩ := (issues_upsert mode _ tables put).mp ranPuts
    obtain ⟨updates, madeUpdates, doneUpdates⟩ := (issues_partialUpdates mode _ put updated).mp ranUpdates
    obtain ⟨deletes, madeDeletes, doneDeletes⟩ := (issues_delete _ updated next).mp ranDeletes
    exact ⟨_, ⟨puts, madePuts, updates, madeUpdates, deletes, madeDeletes, rfl⟩,
      execAll_append.mpr ⟨updated, execAll_append.mpr ⟨put, donePuts, doneUpdates⟩, doneDeletes⟩⟩
  · rintro ⟨_, ⟨puts, madePuts, updates, madeUpdates, deletes, madeDeletes, ⟨⟩⟩, done⟩
    obtain ⟨updated, done, doneDeletes⟩ := execAll_append.mp done
    obtain ⟨put, donePuts, doneUpdates⟩ := execAll_append.mp done
    exact ⟨put, (issues_upsert mode _ tables put).mpr ⟨puts, madePuts, donePuts⟩, updated,
      (issues_partialUpdates mode _ put updated).mpr ⟨updates, madeUpdates, doneUpdates⟩,
      (issues_delete _ updated next).mpr ⟨deletes, madeDeletes, doneDeletes⟩⟩

theorem issues_events (mode : ReplicationApplyMode) (events : List ReplicationEvent) :
    Issues server (eventCalls repo mode events) (applyEventsBatch repo server mode events) :=
  Issues.flatten fun _ _ => issues_group mode _

theorem issues_snapshot (peerRegion table : String) (rows : List SnapshotRow) :
    Issues server (snapshotCall repo peerRegion table rows)
      (applySnapshotChunk repo server peerRegion table rows) := by
  cases rows with
  | nil => exact .none
  | cons first rest =>
    apply Issues.bind
    intro found _
    apply Issues.bind
    intro sample _
    apply Issues.bind
    intro query _
    apply Issues.bind
    intro payloads _
    exact .single _ (query, ⟨payloads, []⟩)

theorem executes_events (mode : ReplicationApplyMode) (events : List ReplicationEvent) :
    Executes server (eventCalls repo mode events) (applyEventsBatch repo server mode events) :=
  fun tables next => (issues_events mode events tables next).mp

theorem executes_snapshot (peerRegion table : String) (rows : List SnapshotRow) :
    Executes server (snapshotCall repo peerRegion table rows)
      (applySnapshotChunk repo server peerRegion table rows) :=
  fun tables next => (issues_snapshot peerRegion table rows tables next).mp

end Issues

/-- Every payload names the region. -/
def Stamped (spec : TableSpec) (region : String) (payloads : List (Option Object)) : Prop :=
  ∀ payload ∈ payloads, ∃ data, payload = some data ∧
    data[spec.regionField]? = some (Json.quote region)

/-- What the apply functions can send to the database on behalf of a region. -/
inductive Issued (repo : Repository) (region : String) : Call → Prop
  | upsert {table : String} {spec : TableSpec} {tableRef : String} {columns : List String}
      {action : ConflictAction} {payloads : List (Option Object)}
      (found : tableSpec repo table = .ok (spec, tableRef))
      (stamped : spec.regionField ≠ "" →
        spec.regionField ∈ columns ∧ Stamped spec region payloads)
      (gated : ∀ assignments owner, action = .doUpdate assignments owner →
        owner = ownerRegionCondition spec) :
      Issued repo region (.insert tableRef columns spec.primaryKey action, ⟨payloads, []⟩)
  | update {table : String} {spec : TableSpec} {tableRef : String} {assignments : List String}
      {payloads : List (Option Object)} (found : tableSpec repo table = .ok (spec, tableRef)) :
      Issued repo region
        (.update tableRef assignments spec.primaryKey (ownerRegionCondition spec),
          ⟨payloads, if spec.regionField ≠ "" then [region] else []⟩)
  | delete {table : String} {spec : TableSpec} {tableRef : String}
      {payloads : List (Option Object)} (found : tableSpec repo table = .ok (spec, tableRef)) :
      Issued repo region
        (.delete tableRef spec.primaryKey (ownerRegionCondition spec),
          ⟨payloads, if spec.regionField ≠ "" then [region] else []⟩)
  | nothing (tableRef : String) (args : Args) : Issued repo region (.selectNothing tableRef, args)

section Issued

variable {repo : Repository} {region : String} {calls : List Call}

/-- The fields with the region of the peer that sent them. -/
def stamp (spec : TableSpec) (region : String) (fields : Fields) : Object :=
  (provenanceValues spec region).foldl (fun data entry =>
    if entry.1 = "" then data else data.insert entry.1 (Json.quote entry.2)) fields

theorem mem_stamp {spec : TableSpec} {region column : String} {fields : Fields} :
    column ∈ stamp spec region fields ↔
      column ∈ fields ∨ (spec.regionField ≠ "" ∧ region ≠ "" ∧ column = spec.regionField) := by
  unfold stamp provenanceValues
  split
  · next both =>
    simp only [List.foldl_cons, List.foldl_nil, if_neg both.1, Std.ExtTreeMap.mem_insert,
      Std.LawfulEqCmp.compare_eq_iff_eq]
    constructor
    · rintro (rfl | field)
      · exact .inr ⟨both.1, both.2, rfl⟩
      · exact .inl field
    · rintro (field | ⟨-, -, rfl⟩)
      · exact .inr field
      · exact .inl rfl
  · next either => simp only [List.foldl_nil, ← and_assoc, either, false_and, or_false]

theorem buildUpsertPayload_stamp (spec : TableSpec) (region : String) (fields : Fields) :
    buildUpsertPayload (some fields) (provenanceValues spec region) =
      .ok (some (stamp spec region fields)) := by
  unfold buildUpsertPayload stamp
  cases provenanceValues spec region <;> rfl

theorem buildUpsertPayload_stamps {spec : TableSpec} {payload result : Option Object}
    (known : region ≠ "") (owned : spec.regionField ≠ "")
    (built : buildUpsertPayload payload (provenanceValues spec region) = .ok result) :
    ∃ data, result = some data ∧ data[spec.regionField]? = some (Json.quote region) := by
  rw [provenanceValues, if_pos ⟨owned, known⟩] at built
  cases payload with
  | none => cases built
  | some data =>
    cases built
    refine ⟨_, rfl, ?_⟩
    simp [owned]

/-- What the insert does on a conflict. -/
def conflictAction (spec : TableSpec) (columns : List String) (allowUpdate : Bool) : ConflictAction :=
  let updateAssignments := columns.filter fun column => column ∉ spec.primaryKey
  if updateAssignments.isEmpty ∨ !allowUpdate then .doNothing
  else .doUpdate updateAssignments (ownerRegionCondition spec)

theorem conflictAction_cases (spec : TableSpec) (columns : List String) (allowUpdate : Bool) :
    (conflictAction spec columns allowUpdate = .doNothing ∧
        (columns.filter (fun column => column ∉ spec.primaryKey) = [] ∨ allowUpdate = false)) ∨
      (allowUpdate = true ∧ columns.filter (fun column => column ∉ spec.primaryKey) ≠ [] ∧
        conflictAction spec columns allowUpdate =
          .doUpdate (columns.filter fun column => column ∉ spec.primaryKey)
            (ownerRegionCondition spec)) := by
  simp only [conflictAction]
  split
  · next nothing => exact .inl ⟨rfl, nothing.imp List.isEmpty_iff.mp (by simp)⟩
  · next updates =>
    obtain ⟨more, allowed⟩ := not_or.mp updates
    exact .inr ⟨by simpa using allowed, mt List.isEmpty_iff.mpr more, rfl⟩

theorem buildBatchUpsertQuery_eq_ok {spec : TableSpec} {tableRef : String} {payload : Option Object}
    {allowUpdate : Bool} {query : Statement} :
    buildBatchUpsertQuery spec tableRef payload allowUpdate = .ok query ↔
      ∃ data, payload = some data ∧ (∀ column ∈ spec.primaryKey, column ∈ data.keys) ∧
        query = .insert tableRef data.keys spec.primaryKey
          (conflictAction spec data.keys allowUpdate) := by
  cases payload with
  | none => simp [buildBatchUpsertQuery]
  | some data =>
    have complete : (spec.primaryKey.find? fun column => !data.contains column) = none ↔
        ∀ column ∈ spec.primaryKey, column ∈ data.keys := by
      simp
    simp only [buildBatchUpsertQuery, Option.some.injEq, exists_eq_left', ← complete]
    cases spec.primaryKey.find? fun column => !data.contains column with
    | some column => simp
    | none =>
      constructor
      · rintro ⟨⟩
        exact ⟨rfl, rfl⟩
      · rintro ⟨-, rfl⟩
        rfl

section Built

variable {mode : ReplicationApplyMode} {events : List ReplicationEvent}

theorem upsertCall_cases (made : upsertCall repo mode events = .ok calls) :
    events = [] ∧ calls = [] ∨ ∃ first ∈ events, ∃ spec tableRef payloads data,
      tableSpec repo first.table = .ok (spec, tableRef) ∧
      events.mapM (fun event => buildUpsertPayload (fieldsToPayload event.fields)
        (provenanceValues spec first.peerRegion)) = .ok payloads ∧
      payloads.head? = some (some data) ∧ (∀ column ∈ spec.primaryKey, column ∈ data.keys) ∧
      calls = [(.insert tableRef data.keys spec.primaryKey
        (conflictAction spec data.keys (mode ≠ .insertOnly)), ⟨payloads, []⟩)] := by
  cases events with
  | nil =>
    cases made
    exact .inl ⟨rfl, rfl⟩
  | cons first rest =>
    obtain ⟨⟨spec, tableRef⟩, found, made⟩ := Fallible.bind_eq_ok.mp made
    obtain ⟨payloads, built, made⟩ := Fallible.bind_eq_ok.mp made
    obtain ⟨query, wrote, made⟩ := Fallible.bind_eq_ok.mp made
    cases made
    obtain ⟨data, sample, keyed, rfl⟩ := buildBatchUpsertQuery_eq_ok.mp wrote
    exact .inr ⟨first, List.mem_cons_self, spec, tableRef, payloads, data, found, built,
      Option.join_eq_some_iff.mp sample, keyed, rfl⟩

/-- A group of updates of nothing but the key has a statement without rows. -/
theorem partialUpdateCall_cases (made : partialUpdateCall repo events = .ok calls) :
    events = [] ∧ calls = [] ∨ ∃ first ∈ events, ∃ spec tableRef query,
      tableSpec repo first.table = .ok (spec, tableRef) ∧
      (query = .selectNothing tableRef ∨ ∃ assignments,
        query = .update tableRef assignments spec.primaryKey (ownerRegionCondition spec)) ∧
      calls = [(query, ⟨events.map fun event => fieldsToPayload event.fields,
        if spec.regionField ≠ "" ∧ first.peerRegion ≠ "" then [first.peerRegion] else []⟩)] := by
  cases events with
  | nil =>
    cases made
    exact .inl ⟨rfl, rfl⟩
  | cons first rest =>
    obtain ⟨⟨spec, tableRef⟩, found, made⟩ := Fallible.bind_eq_ok.mp made
    obtain ⟨query, wrote, made⟩ := Fallible.bind_eq_ok.mp made
    cases made
    refine .inr ⟨first, List.mem_cons_self, spec, tableRef, query, found, ?_, rfl⟩
    simp only [buildBatchPartialUpdateQuery] at wrote
    split at wrote
    · cases wrote
    · split at wrote
      · cases wrote
        exact .inl rfl
      · cases wrote
        exact .inr ⟨_, rfl⟩

theorem deleteCall_cases (made : deleteCall repo events = .ok calls) :
    events = [] ∧ calls = [] ∨ ∃ first ∈ events, ∃ spec tableRef,
      tableSpec repo first.table = .ok (spec, tableRef) ∧
      calls = [(buildBatchDeleteQuery spec tableRef,
        ⟨events.map fun event => primaryKeyPayload event.primaryKey,
          if spec.regionField ≠ "" then [first.peerRegion] else []⟩)] := by
  cases events with
  | nil =>
    cases made
    exact .inl ⟨rfl, rfl⟩
  | cons first rest =>
    obtain ⟨⟨spec, tableRef⟩, found, made⟩ := Fallible.bind_eq_ok.mp made
    cases made
    exact .inr ⟨first, List.mem_cons_self, spec, tableRef, found, rfl⟩

/-- The updates of a batch are those of its groups. -/
theorem mem_partialUpdateCalls {call : Call} (made : partialUpdateCalls repo mode events = .ok calls)
    (mem : call ∈ calls) : ∃ group ∈ Grouping.groups fieldSetKey events, ∃ calls,
      partialUpdateCall repo group.2 = .ok calls ∧ call ∈ calls := by
  unfold partialUpdateCalls at made
  split at made
  · cases made
    cases mem
  · obtain ⟨group, grouped, calls, made, mem⟩ := Fallible.mem_of_mapM_flatten made mem
    exact ⟨group, grouped, calls, made, mem⟩

theorem groupCalls_eq_ok : groupCalls repo mode events = .ok calls ↔ ∃ upserts updates deletes,
    upsertCall repo mode (events.filter fun event =>
      event.operation != .delete && event.operation != .update) = .ok upserts ∧
    partialUpdateCalls repo mode (events.filter fun event => event.operation == .update) =
      .ok updates ∧
    deleteCall repo (events.filter fun event => event.operation == .delete) = .ok deletes ∧
    calls = upserts ++ updates ++ deletes := by
  constructor
  · intro made
    obtain ⟨upserts, madeUpserts, made⟩ := Fallible.bind_eq_ok.mp made
    obtain ⟨updates, madeUpdates, made⟩ := Fallible.bind_eq_ok.mp made
    obtain ⟨deletes, madeDeletes, made⟩ := Fallible.bind_eq_ok.mp made
    cases made
    exact ⟨upserts, updates, deletes, madeUpserts, madeUpdates, madeDeletes, rfl⟩
  · rintro ⟨upserts, updates, deletes, madeUpserts, madeUpdates, madeDeletes, rfl⟩
    rw [groupCalls, madeUpserts, madeUpdates, madeDeletes]
    rfl

/-- A snapshot chunk is one insert, and its first row is the sample. -/
theorem snapshotCall_cases {table : String} {rows : List SnapshotRow}
    (made : snapshotCall repo region table rows = .ok calls) :
    rows = [] ∧ calls = [] ∨ ∃ spec tableRef payloads data,
      tableSpec repo table = .ok (spec, tableRef) ∧
      rows.mapM (fun row => buildUpsertPayload row.payload (provenanceValues spec region)) =
        .ok payloads ∧
      payloads.head? = some (some data) ∧ (∀ column ∈ spec.primaryKey, column ∈ data.keys) ∧
      calls = [(.insert tableRef data.keys spec.primaryKey (conflictAction spec data.keys true),
        ⟨payloads, []⟩)] := by
  cases rows with
  | nil =>
    cases made
    exact .inl ⟨rfl, rfl⟩
  | cons first rest =>
    obtain ⟨⟨spec, tableRef⟩, found, made⟩ := Fallible.bind_eq_ok.mp made
    obtain ⟨sample, sampled, made⟩ := Fallible.bind_eq_ok.mp made
    obtain ⟨query, wrote, made⟩ := Fallible.bind_eq_ok.mp made
    obtain ⟨payloads, built, made⟩ := Fallible.bind_eq_ok.mp made
    cases made
    obtain ⟨data, rfl, keyed, rfl⟩ := buildBatchUpsertQuery_eq_ok.mp wrote
    obtain ⟨head, others, same, -, rfl⟩ :=
      List.forall₂_cons_left_iff.mp (Fallible.mapM_eq_ok.mp built)
    rw [sampled] at same
    cases same
    exact .inr ⟨spec, tableRef, _, data, found, built, rfl, keyed, rfl⟩

end Built

/-- An upsert whose sample is one of the payloads it sends. -/
theorem issued_insert {α : Type} {table : String} {spec : TableSpec} {tableRef : String}
    {sources : List α} {payload : α → Option Object} {data : Object}
    {payloads : List (Option Object)} {allowUpdate : Bool}
    (known : region ≠ "") (found : tableSpec repo table = .ok (spec, tableRef))
    (built : sources.mapM (fun source =>
      buildUpsertPayload (payload source) (provenanceValues spec region)) = .ok payloads)
    (first : payloads.head? = some (some data)) :
    Issued repo region (.insert tableRef data.keys spec.primaryKey
      (conflictAction spec data.keys allowUpdate), ⟨payloads, []⟩) := by
  have gated : ∀ assignments owner, conflictAction spec data.keys allowUpdate =
      .doUpdate assignments owner → owner = ownerRegionCondition spec := by
    intro assignments owner updates
    rcases conflictAction_cases spec data.keys allowUpdate with ⟨never, -⟩ | ⟨-, -, always⟩
    · rw [never] at updates
      cases updates
    · rw [always] at updates
      cases updates
      rfl
  refine .upsert found ?_ gated
  intro owned
  have stamped : Stamped spec region payloads := by
    intro payload mem
    obtain ⟨source, -, stamps⟩ := Fallible.mem_of_mapM built mem
    exact buildUpsertPayload_stamps known owned stamps
  obtain ⟨_, same, carries⟩ := stamped _ (List.mem_of_mem_head? first)
  cases same
  exact ⟨Std.ExtTreeMap.mem_keys.mpr (Std.ExtTreeMap.mem_iff_isSome_getElem?.mpr (by simp [carries])),
    stamped⟩

section Events

variable {mode : ReplicationApplyMode} {events : List ReplicationEvent}
  (known : region ≠ "") (attributed : ∀ event ∈ events, event.peerRegion = region)

include known attributed

theorem issued_upsert (made : upsertCall repo mode events = .ok calls) :
    ∀ call ∈ calls, Issued repo region call := by
  obtain ⟨-, rfl⟩ | ⟨first, inside, spec, tableRef, payloads, data, found, built, head, -, rfl⟩ :=
    upsertCall_cases made
  · exact List.forall_mem_nil _
  · rw [attributed first inside] at built
    exact List.forall_mem_singleton.mpr (issued_insert known found built head)

theorem issued_partialUpdate (made : partialUpdateCall repo events = .ok calls) :
    ∀ call ∈ calls, Issued repo region call := by
  obtain ⟨-, rfl⟩ | ⟨first, inside, spec, tableRef, query, found, built, rfl⟩ :=
    partialUpdateCall_cases made
  · exact List.forall_mem_nil _
  · refine List.forall_mem_singleton.mpr ?_
    rw [attributed first inside]
    simp only [ne_eq, known, not_false_eq_true, and_true]
    obtain rfl | ⟨assignments, rfl⟩ := built
    · exact .nothing _ _
    · exact .update found

theorem issued_partialUpdates (made : partialUpdateCalls repo mode events = .ok calls) :
    ∀ call ∈ calls, Issued repo region call := by
  intro call mem
  obtain ⟨group, grouped, calls, made, mem⟩ := mem_partialUpdateCalls made mem
  refine issued_partialUpdate known ?_ made call mem
  exact fun event member => attributed event (Grouping.mem_of_mem_groups grouped member)

omit known in
theorem issued_delete (made : deleteCall repo events = .ok calls) :
    ∀ call ∈ calls, Issued repo region call := by
  obtain ⟨-, rfl⟩ | ⟨first, inside, spec, tableRef, found, rfl⟩ := deleteCall_cases made
  · exact List.forall_mem_nil _
  · refine List.forall_mem_singleton.mpr ?_
    rw [attributed first inside]
    exact .delete found

theorem issued_group (made : groupCalls repo mode events = .ok calls) :
    ∀ call ∈ calls, Issued repo region call := by
  obtain ⟨upserts, updates, deletes, madeUpserts, madeUpdates, madeDeletes, rfl⟩ :=
    groupCalls_eq_ok.mp made
  have kept {keep : ReplicationEvent → Bool} : ∀ event ∈ events.filter keep,
      event.peerRegion = region := fun event mem => attributed event (List.mem_of_mem_filter mem)
  simp only [List.forall_mem_append]
  exact ⟨⟨issued_upsert known kept madeUpserts, issued_partialUpdates known kept madeUpdates⟩,
    issued_delete kept madeDeletes⟩

theorem issued_events (made : eventCalls repo mode events = .ok calls) :
    ∀ call ∈ calls, Issued repo region call := by
  intro call mem
  obtain ⟨group, grouped, calls, made, mem⟩ := Fallible.mem_of_mapM_flatten made mem
  refine issued_group known ?_ made call mem
  exact fun event member => attributed event
    (Grouping.mem_of_mem_groups grouped (Grouping.mem_of_mem_lastPerKey member))

end Events

theorem issued_snapshot {table : String} {rows : List SnapshotRow} (known : region ≠ "")
    (made : snapshotCall repo region table rows = .ok calls) :
    ∀ call ∈ calls, Issued repo region call := by
  obtain ⟨-, rfl⟩ | ⟨spec, tableRef, payloads, data, found, built, head, -, rfl⟩ :=
    snapshotCall_cases made
  · exact List.forall_mem_nil _
  · exact List.forall_mem_singleton.mpr (issued_insert known found built head)

end Issued

end Transmogr

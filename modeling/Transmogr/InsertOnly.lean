import Transmogr.EventCalls
import Transmogr.Machine

/-! Apply mode `insert_only`: new rows are inserted, and what is there stays. -/
namespace Transmogr

open Sql

variable {V : Type} [DecidableEq V]

section Messages

variable (repo : Repository) (server : Server V) (region : String)

/-- A full row of a message, and what it is in the local table. -/
def Delivered (table : String) (payload : Option Object) (tableRef : String) (key : List V)
    (source : Row V) : Prop :=
  ∃ spec stamped, tableSpec repo table = .ok (spec, tableRef) ∧
    buildUpsertPayload payload (provenanceValues spec region) = .ok stamped ∧
    populateRecord server tableRef stamped = .ok source ∧ keyValues spec.primaryKey source = some key

/-- The full rows of a message: inserts, polling upserts and snapshot rows. -/
def Inbound.sources : Inbound → List (String × Option Object)
  | .batch sent =>
    (sent.events.filter fun event => event.operation != .delete && event.operation != .update).map
      fun event => (event.table, fieldsToPayload event.fields)
  | .chunk table rows => rows.map fun row => (table, row.payload)

def Inbound.Delivers (message : Inbound) (tableRef : String) (key : List V) (source : Row V) : Prop :=
  ∃ sent ∈ message.sources, Delivered repo server region sent.1 sent.2 tableRef key source

def insertOnlyStep (store : Store V) (message : Inbound) : Option (Store V) :=
  (applyInbound repo server region .insertOnly store message).toOption

/-- The fields of a full row hold its primary key. -/
def ReplicationEvent.CarriesKey (event : ReplicationEvent) : Prop :=
  ∀ spec tableRef, tableSpec repo event.table = .ok (spec, tableRef) → ∀ column ∈ spec.primaryKey,
    event.fields[column]? = (event.primaryKey.find? (·.column = column)).map (·.value)

def payloadColumns (payload : Option Object) : List String := (payload.getD ∅).keys

/-- The full rows of a table carry the same columns. -/
def SameColumns (sources : List (String × Option Object)) : Prop :=
  ∀ first ∈ sources, ∀ second ∈ sources, first.1 = second.1 →
    payloadColumns first.2 = payloadColumns second.2

/-- No event is behind the cursor when it arrives. -/
def Inbound.Fresh (store : Store V) : Inbound → Prop
  | .batch sent => ∀ prepared, prepareEvents .insertOnly sent.events = .ok prepared →
      let ordered := commitOrder sent.kind prepared
      filterStale (lockCursors store.cursors ordered) ordered = ordered
  | .chunk .. => True

/-- A message of the region with full rows and positions that are not stale. -/
structure Proper (store : Store V) (message : Inbound) : Prop where
  attributed : message.AttributedTo region
  fresh : message.Fresh store
  full : SameColumns message.sources
  keyed : ∀ sent, message = .batch sent → ∀ event ∈ sent.events, event.operation = .insert →
    event.CarriesKey repo

/-- Upserts come for rows that are there, and snapshot rows for rows that are not there or
belong to another region. -/
def Additive (store : Store V) : Inbound → Prop
  | .batch sent => ∀ event ∈ sent.events, event.operation = .upsert ∨ event.operation = .unset →
      ∀ tableRef key source,
        Delivered repo server region event.table (fieldsToPayload event.fields) tableRef key source →
        (store.tables tableRef key).isSome
  | .chunk table rows => ∀ row ∈ rows, ∀ tableRef key source,
      Delivered repo server region table row.payload tableRef key source →
      ∀ target, store.tables tableRef key = some target → Foreign repo server region tableRef target

end Messages

def KeepsRows (before after : Tables V) : Prop :=
  ∀ tableRef key row, before tableRef key = some row → after tableRef key = some row

omit [DecidableEq V] in
theorem KeepsRows.refl (tables : Tables V) : KeepsRows tables tables := fun _ _ _ present => present

omit [DecidableEq V] in
theorem KeepsRows.trans {first second third : Tables V} (before : KeepsRows first second)
    (after : KeepsRows second third) : KeepsRows first third :=
  fun tableRef key row present => after tableRef key row (before tableRef key row present)

section Inserts

variable {repo : Repository} {server : Server V} {region : String}

/-- An insert of some of the rows, each with all its columns. -/
inductive Insertion (repo : Repository) (region : String) (sources : List (String × Option Object)) :
    Call → ConflictAction → Prop
  | insertion {table : String} {spec : TableSpec} {tableRef : String} {columns : List String}
      {action : ConflictAction} {payloads : List (Option Object)}
      (found : tableSpec repo table = .ok (spec, tableRef))
      (keyed : ∀ column ∈ spec.primaryKey, column ∈ columns)
      (sent : ∀ stamped, some stamped ∈ payloads → ∃ fields, (table, some fields) ∈ sources ∧
        stamped = stamp spec region fields ∧ stamped.keys = columns) :
      Insertion repo region sources
        (.insert tableRef columns spec.primaryKey action, ⟨payloads, []⟩) action

/-- A new row of a table: all columns of the delivered row with its key, and the region. -/
def InsertedFrom (repo : Repository) (server : Server V) (region : String)
    (sources : List (String × Option Object)) (tableRef : String) (key : List V) (row : Row V) : Prop :=
  ∃ table spec fields source, (table, some fields) ∈ sources ∧
    tableSpec repo table = .ok (spec, tableRef) ∧
    populateRecord server tableRef (some (stamp spec region fields)) = .ok source ∧
    keyValues spec.primaryKey source = some key ∧
    row = insertedRow server tableRef (stamp spec region fields).keys source

/-- A row that an insert adds is one of its rows. -/
theorem Insertion.adds {sources : List (String × Option Object)} {call : Call}
    {action : ConflictAction} {tables next : Tables V} (insertion : Insertion repo region sources call action)
    (ran : exec server call.1 call.2 tables = .ok next) {tableRef : String} {key : List V} {row : Row V}
    (absent : tables tableRef key = none) (present : next tableRef key = some row) :
    InsertedFrom repo server region sources tableRef key row := by
  obtain ⟨touched, -, accounts⟩ := exec_accounts ran
  by_cases here : tableRef = call.1.table
  · subst here
    by_cases hit : key ∈ touched
    · have written := accounts.effect key hit
      rw [present] at written
      cases insertion with
      | insertion found keyed sent =>
        cases written with
        | @insert _ _ _ _ _ stamped _ _ mem read values =>
          cases stamped with
          | none => cases read
          | some stamped =>
            obtain ⟨fields, delivered, rfl, rfl⟩ := sent _ mem
            rw [keyValues_insertedRow keyed] at values
            exact ⟨_, _, fields, _, delivered, found, read, values, rfl⟩
        | overwrite _ _ _ _ target => cases absent.symm.trans target
    · rw [accounts.untouched key hit, absent] at present
      cases present
  · rw [accounts.elsewhere tableRef here, absent] at present
    cases present

/-- An insert that does nothing on conflict keeps every row. -/
theorem Insertion.keepsRows {sources : List (String × Option Object)} {call : Call}
    {tables next : Tables V} (insertion : Insertion repo region sources call .doNothing)
    (ran : exec server call.1 call.2 tables = .ok next) : KeepsRows tables next := by
  obtain ⟨touched, -, accounts⟩ := exec_accounts ran
  intro tableRef key row present
  by_cases here : tableRef = call.1.table
  · subst here
    by_cases hit : key ∈ touched
    · have written := accounts.effect key hit
      cases insertion
      generalize next _ key = after at written
      cases written with
      | insert _ _ _ _ absent => cases absent.symm.trans present
    · rw [accounts.untouched key hit, present]
  · rw [accounts.elsewhere tableRef here, present]

/-- What a list of such inserts does. -/
structure Adds (repo : Repository) (server : Server V) (region : String)
    (sources : List (String × Option Object)) (before after : Tables V) : Prop where
  kept : KeepsRows before after
  added : ∀ tableRef key row, before tableRef key = none → after tableRef key = some row →
    InsertedFrom repo server region sources tableRef key row

section Adds

variable {sources : List (String × Option Object)}

omit [DecidableEq V] in
theorem Adds.refl (tables : Tables V) : Adds repo server region sources tables tables :=
  ⟨.refl tables, fun _ _ _ absent present => (nomatch absent.symm.trans present)⟩

omit [DecidableEq V] in
theorem Adds.trans {first second third : Tables V} (before : Adds repo server region sources first second)
    (after : Adds repo server region sources second third) :
    Adds repo server region sources first third := by
  refine ⟨before.kept.trans after.kept, fun tableRef key row absent present => ?_⟩
  cases middle : second tableRef key with
  | none => exact after.added tableRef key row middle present
  | some other =>
    cases (after.kept tableRef key other middle).symm.trans present
    exact before.added tableRef key _ absent middle

theorem execAll_adds {calls : List Call} {tables next : Tables V}
    (each : ∀ call ∈ calls, Insertion repo region sources call .doNothing)
    (ran : execAll server calls tables = .ok next) : Adds repo server region sources tables next :=
  Fallible.foldlM_rel Adds.refl Adds.trans
    (fun call mem _ _ stepped => ⟨(each call mem).keepsRows stepped,
      fun _ _ _ => (each call mem).adds stepped⟩) ran

end Adds

end Inserts

section Statements

variable {repo : Repository} {region : String} {calls : List Call}

theorem Insertion.mono {sources more : List (String × Option Object)} {call : Call}
    {action : ConflictAction} (subset : sources ⊆ more)
    (insertion : Insertion repo region sources call action) :
    Insertion repo region more call action := by
  cases insertion with
  | insertion found keyed sent =>
    exact .insertion found keyed fun stamped mem =>
      (sent stamped mem).imp fun _ found => ⟨subset found.1, found.2⟩

theorem buildUpsertPayload_eq_some {spec : TableSpec} {payload : Option Object} {stamped : Object}
    (built : buildUpsertPayload payload (provenanceValues spec region) = .ok (some stamped)) :
    ∃ fields, payload = some fields ∧ stamped = stamp spec region fields := by
  cases payload with
  | none =>
    unfold buildUpsertPayload at built
    split at built <;> cases built
  | some fields =>
    rw [buildUpsertPayload_stamp] at built
    cases built
    exact ⟨fields, rfl, rfl⟩

theorem SameColumns.subset {sources more : List (String × Option Object)} (same : SameColumns more)
    (subset : sources ⊆ more) : SameColumns sources :=
  fun first mem second mem' => same first (subset mem) second (subset mem')

/-- Full rows have the same columns once they are stamped. -/
theorem SameColumns.stamped {sources : List (String × Option Object)} {spec : TableSpec} {table : String}
    {payload payload' : Option Object} {stamped stamped' : Object} (same : SameColumns sources)
    (mem : (table, payload) ∈ sources) (mem' : (table, payload') ∈ sources)
    (built : buildUpsertPayload payload (provenanceValues spec region) = .ok (some stamped))
    (built' : buildUpsertPayload payload' (provenanceValues spec region) = .ok (some stamped')) :
    ∃ fields, (table, some fields) ∈ sources ∧ stamped = stamp spec region fields ∧
      stamped.keys = stamped'.keys := by
  obtain ⟨fields, rfl, rfl⟩ := buildUpsertPayload_eq_some built
  obtain ⟨fields', rfl, rfl⟩ := buildUpsertPayload_eq_some built'
  exact ⟨fields, mem, rfl, keys_stamp_congr (same _ mem _ mem' rfl)⟩

/-- The full rows of events. -/
def eventSources (events : List ReplicationEvent) : List (String × Option Object) :=
  events.map fun event => (event.table, fieldsToPayload event.fields)

/-- The payload of the event is in one of the inserts. -/
def SentIn (repo : Repository) (region : String) (calls : List Call) (event : ReplicationEvent) : Prop :=
  ∃ spec tableRef columns payloads stamped,
    (.insert tableRef columns spec.primaryKey .doNothing, ⟨payloads, []⟩) ∈ calls ∧
    tableSpec repo event.table = .ok (spec, tableRef) ∧
    (∀ column ∈ spec.primaryKey, column ∈ columns) ∧ stamped ∈ payloads ∧
    buildUpsertPayload (fieldsToPayload event.fields) (provenanceValues spec region) = .ok stamped

section Table

variable {events : List ReplicationEvent} {table : String}

theorem insertion_upsert (attributed : ∀ event ∈ events, event.peerRegion = region)
    (ofTable : ∀ event ∈ events, event.table = table) (same : SameColumns (eventSources events))
    (made : upsertCall repo .insertOnly events = .ok calls) :
    (∀ call ∈ calls, Insertion repo region (eventSources events) call .doNothing) ∧
      ∀ event ∈ events, SentIn repo region calls event := by
  obtain ⟨rfl, rfl⟩ | ⟨first, inside, spec, tableRef, payloads, data, found, built, head, keyed, rfl⟩ :=
    upsertCall_cases made
  · exact ⟨List.forall_mem_nil _, List.forall_mem_nil _⟩
  · rw [attributed first inside] at built
    rw [ofTable first inside] at found
    have never : conflictAction spec data.keys false = .doNothing := if_pos (.inr rfl)
    simp only [ne_eq, not_true_eq_false, decide_false, never]
    refine ⟨List.forall_mem_singleton.mpr (.insertion found keyed fun stamped mem => ?_),
      fun event mem => ?_⟩
    · have sent : ∀ event ∈ events, (table, fieldsToPayload event.fields) ∈ eventSources events :=
        fun event mem => List.mem_map.mpr ⟨event, mem, by rw [ofTable event mem]⟩
      obtain ⟨event, memEvent, stamps⟩ := Fallible.mem_of_mapM built mem
      obtain ⟨sample, memSample, sampled⟩ := Fallible.mem_of_mapM built (List.mem_of_mem_head? head)
      exact same.stamped (sent event memEvent) (sent sample memSample) stamps sampled
    · obtain ⟨stamped, sent, stamps⟩ := Fallible.exists_mem_of_mapM built mem
      refine ⟨spec, tableRef, data.keys, payloads, stamped, List.mem_cons_self, ?_, keyed, sent, stamps⟩
      rw [ofTable event mem]
      exact found

/-- Inserts are neither updates nor deletes. -/
theorem groupCalls_inserts (inserts : ∀ event ∈ events, event.operation = .insert)
    (made : groupCalls repo .insertOnly events = .ok calls) :
    upsertCall repo .insertOnly events = .ok calls := by
  have puts : (events.filter fun event => event.operation != .delete && event.operation != .update) =
      events := List.filter_eq_self.mpr fun event mem => by rw [inserts event mem]; rfl
  have deletes : (events.filter fun event => event.operation == .delete) = [] :=
    List.filter_eq_nil_iff.mpr fun event mem => by rw [inserts event mem]; decide
  obtain ⟨upserts, updates, deleted, madeUpserts, madeUpdates, madeDeletes, rfl⟩ :=
    groupCalls_eq_ok.mp made
  rw [puts] at madeUpserts
  rw [deletes] at madeDeletes
  cases madeUpdates
  cases madeDeletes
  rw [madeUpserts, List.append_nil, List.append_nil]

end Table

theorem insertion_events {events : List ReplicationEvent}
    (attributed : ∀ event ∈ events, event.peerRegion = region)
    (inserts : ∀ event ∈ events, event.operation = .insert) (same : SameColumns (eventSources events))
    (made : eventCalls repo .insertOnly events = .ok calls) :
    (∀ call ∈ calls, Insertion repo region (eventSources events) call .doNothing) ∧
    ∀ event ∈ events, ∃ last ∈ events, last.table = event.table ∧ last.primaryKey = event.primaryKey ∧
      SentIn repo region calls last := by
  let groupKey (event : ReplicationEvent) := (event.peerRegion, event.table)
  have inGroup : ∀ group ∈ Grouping.groups groupKey events, ∀ event ∈ group.2,
      event ∈ events ∧ event.table = group.1.2 := fun group grouped event member =>
    ⟨Grouping.mem_of_mem_groups grouped member,
      congrArg Prod.snd ((Grouping.groups_byKey groupKey events group grouped).2 event member)⟩
  -- the statements of one group
  have each : ∀ group ∈ Grouping.groups groupKey events, ∀ calls,
      groupCalls repo .insertOnly (Grouping.lastPerKey (·.primaryKey) group.2) = .ok calls →
      (∀ call ∈ calls, Insertion repo region
        (eventSources (Grouping.lastPerKey (·.primaryKey) group.2)) call .doNothing) ∧
      ∀ event ∈ Grouping.lastPerKey (·.primaryKey) group.2, SentIn repo region calls event := by
    intro group grouped calls made
    have kept : ∀ event ∈ Grouping.lastPerKey (·.primaryKey) group.2,
        event ∈ events ∧ event.table = group.1.2 := fun event mem =>
      inGroup group grouped event (Grouping.mem_of_mem_lastPerKey mem)
    exact insertion_upsert (fun event mem => attributed event (kept event mem).1)
      (fun event mem => (kept event mem).2)
      (same.subset (List.map_subset _ fun event mem => (kept event mem).1))
      (groupCalls_inserts (fun event mem => inserts event (kept event mem).1) made)
  constructor
  · intro call mem
    obtain ⟨group, grouped, calls, made, mem⟩ := Fallible.mem_of_mapM_flatten made mem
    refine ((each group grouped calls made).1 call mem).mono (List.map_subset _ fun event mem => ?_)
    exact (inGroup group grouped event (Grouping.mem_of_mem_lastPerKey mem)).1
  · intro event mem
    obtain ⟨group, grouped, member⟩ := @Grouping.mem_groups_of_mem _ _ _ groupKey _ _ mem
    obtain ⟨last, memLast, sameKey⟩ :=
      @Grouping.exists_mem_lastPerKey _ _ _ ReplicationEvent.primaryKey _ _ member
    obtain ⟨callsOf, made, inside⟩ := Fallible.subset_of_mapM_flatten made grouped
    obtain ⟨memEvents, table⟩ := inGroup group grouped last (Grouping.mem_of_mem_lastPerKey memLast)
    refine ⟨last, memEvents, table.trans (inGroup group grouped event member).2.symm, sameKey, ?_⟩
    obtain ⟨spec, tableRef, columns, payloads, stamped, issued, rest⟩ :=
      (each group grouped callsOf made).2 last memLast
    exact ⟨spec, tableRef, columns, payloads, stamped, inside issued, rest⟩

end Statements

section Keys

variable {repo : Repository} {server : Server V} {region : String}

omit [DecidableEq V] in
/-- The record of an event: its fields, with the region stamped over them. -/
theorem stamped_record {spec : TableSpec} {fields : Fields} {tableRef : String}
    {stamped : Option Object} {source : Row V}
    (built : buildUpsertPayload (fieldsToPayload fields) (provenanceValues spec region) = .ok stamped)
    (read : populateRecord server tableRef stamped = .ok source) :
    ∃ object, source = populateRow server tableRef object ∧ ∀ column : String, object[column]? =
      if (spec.regionField ≠ "" ∧ region ≠ "") ∧ spec.regionField = column
      then some (Json.quote region) else fields[column]? := by
  have nonempty : ∀ object, fieldsToPayload fields = some object → object = fields := fun object made => by
    unfold fieldsToPayload at made
    split at made
    · cases made
    · cases made
      rfl
  cases stamped with
  | none => cases read
  | some object =>
    simp only [populateRecord] at read
    split at read
    · cases read
      refine ⟨object, rfl, fun column => ?_⟩
      unfold provenanceValues at built
      split at built
      · next owned =>
        cases payload : fieldsToPayload fields with
        | none => rw [payload] at built; cases built
        | some data =>
          rw [payload] at built
          cases built
          obtain rfl := nonempty data payload
          simp [owned, Std.ExtTreeMap.getElem?_insert]
      · next unowned =>
        rw [if_neg fun both => unowned both.1]
        cases built_eq : fieldsToPayload fields with
        | none => rw [built_eq] at built; cases built
        | some data =>
          rw [built_eq] at built
          cases built
          rw [nonempty _ built_eq]
    · cases read

omit [DecidableEq V] in
/-- Full rows with the same primary key are the same row of the table. -/
theorem keyValues_eq_of_carriesKey {event last : ReplicationEvent} {spec : TableSpec} {tableRef : String}
    {stamped stampedLast : Option Object} {source sourceLast : Row V}
    (carries : event.CarriesKey repo) (carriesLast : last.CarriesKey repo)
    (found : tableSpec repo event.table = .ok (spec, tableRef))
    (sameTable : last.table = event.table) (sameKey : last.primaryKey = event.primaryKey)
    (built : buildUpsertPayload (fieldsToPayload event.fields) (provenanceValues spec region) =
      .ok stamped)
    (builtLast : buildUpsertPayload (fieldsToPayload last.fields) (provenanceValues spec region) =
      .ok stampedLast)
    (read : populateRecord server tableRef stamped = .ok source)
    (readLast : populateRecord server tableRef stampedLast = .ok sourceLast) :
    keyValues spec.primaryKey sourceLast = keyValues spec.primaryKey source := by
  obtain ⟨object, rfl, columns⟩ := stamped_record built read
  obtain ⟨objectLast, rfl, columnsLast⟩ := stamped_record builtLast readLast
  apply keyValues_congr
  intro column mem
  have raw := carries spec tableRef found column mem
  have rawLast := carriesLast spec tableRef (sameTable ▸ found) column mem
  rw [populateRow, populateRow, columns, columnsLast, raw, rawLast, sameKey]

/-- What is sent is there afterwards. -/
theorem present_of_sentIn {sources : List (String × Option Object)} {calls : List Call}
    {event : ReplicationEvent} {tables next : Tables V}
    (each : ∀ call ∈ calls, Insertion repo region sources call .doNothing)
    (ran : execAll server calls tables = .ok next) (sent : SentIn repo region calls event) :
    ∃ spec tableRef stamped source key, tableSpec repo event.table = .ok (spec, tableRef) ∧
      buildUpsertPayload (fieldsToPayload event.fields) (provenanceValues spec region) = .ok stamped ∧
      populateRecord server tableRef stamped = .ok source ∧
      keyValues spec.primaryKey source = some key ∧ (next tableRef key).isSome := by
  obtain ⟨spec, tableRef, columns, payloads, stamped, issued, found, keyed, mem, built⟩ := sent
  obtain ⟨earlier, later, rfl⟩ := List.append_of_mem issued
  obtain ⟨before, -, ran⟩ := execAll_append.mp ran
  obtain ⟨after, executed, ran⟩ := Fallible.bind_eq_ok.mp ran
  obtain ⟨source, key, read, values, present⟩ := exec_insert_present executed mem
  obtain ⟨row, has⟩ := Option.isSome_iff_exists.mp present
  have adds : Adds repo server region sources after next := execAll_adds
    (fun call mem => each call (List.mem_append_right _ (List.mem_cons_of_mem _ mem))) ran
  rw [keyValues_insertedRow keyed] at values
  exact ⟨spec, tableRef, stamped, source, key, found, built, read, values,
    by rw [adds.kept tableRef key row has]; rfl⟩

end Keys

/-! ## Messages -/

section Messages

variable {repo : Repository} {server : Server V} {region : String}

theorem mem_prepareEvents {events prepared : List ReplicationEvent}
    (ok : prepareEvents .insertOnly events = .ok prepared) {event : ReplicationEvent} :
    event ∈ prepared ↔ event ∈ events ∧ event.operation = .insert := by
  induction events generalizing prepared with
  | nil => cases ok; simp
  | cons head events ih =>
    rw [prepareEvents] at ok
    obtain ⟨_, _, ok⟩ := Fallible.bind_eq_ok.mp ok
    obtain ⟨rest, restOk, ok⟩ := Fallible.bind_eq_ok.mp ok
    cases ok
    by_cases inserts : head.operation = .insert
    · have same : defaultOperation head = head := if_neg (by rw [inserts]; decide)
      have allowed : applyAllowed .insertOnly head.operation = true := by rw [inserts]; rfl
      rw [same, if_pos allowed, List.mem_cons, List.mem_cons, ih restOk, or_and_right]
      exact or_congr_left (iff_self_and.mpr fun eq => eq ▸ inserts)
    · have skipped : ¬applyAllowed .insertOnly (defaultOperation head).operation = true := by
        unfold defaultOperation
        split
        · exact Bool.false_ne_true
        · simpa [applyAllowed] using inserts
      have other : ¬(event = head ∧ event.operation = .insert) := fun both =>
        inserts (both.1 ▸ both.2)
      rw [if_neg skipped, ih restOk, List.mem_cons, or_and_right]
      exact (or_iff_right other).symm

/-- A batch adds its inserts, and a row is there for each of them. -/
theorem applyBatch_adds {sent : Batch} {store next : Store V}
    (attributed : ∀ event ∈ sent.events, event.peerRegion = region)
    (fresh : (Inbound.batch sent).Fresh store) (full : SameColumns (Inbound.batch sent).sources)
    (carries : ∀ event ∈ sent.events, event.operation = .insert → event.CarriesKey repo)
    (ran : applyBatch repo server .insertOnly sent.kind sent.events store = .ok next) :
    Adds repo server region (Inbound.batch sent).sources store.tables next.tables ∧
    ∀ event ∈ sent.events, event.operation = .insert → ∀ tableRef key source,
      Delivered repo server region event.table (fieldsToPayload event.fields) tableRef key source →
      (next.tables tableRef key).isSome := by
  obtain ⟨prepared, prepare, committed⟩ := applyBatch_eq_ok.mp ran
  split at committed
  · next empty =>
    rw [committed]
    refine ⟨.refl _, fun event mem inserts => ?_⟩
    rw [List.isEmpty_iff] at empty
    exact absurd ((mem_prepareEvents prepare).mpr ⟨mem, inserts⟩) (by simp [empty])
  · obtain ⟨tables, applied, rfl⟩ := commit_eq_ok.mp committed
    rw [fresh prepared prepare] at applied
    have ordered : ∀ {event}, event ∈ commitOrder sent.kind prepared ↔
        event ∈ sent.events ∧ event.operation = .insert :=
      mem_commitOrder.trans (mem_prepareEvents prepare)
    obtain ⟨calls, made, executed⟩ := executes_events .insertOnly _ _ _ applied
    have inside : eventSources (commitOrder sent.kind prepared) ⊆ (Inbound.batch sent).sources := by
      refine List.map_subset _ fun event mem => List.mem_filter.mpr ⟨(ordered.mp mem).1, ?_⟩
      rw [(ordered.mp mem).2]
      rfl
    obtain ⟨each, sentAll⟩ := insertion_events
      (fun event mem => attributed event (ordered.mp mem).1) (fun event mem => (ordered.mp mem).2)
      (full.subset inside) made
    constructor
    · exact execAll_adds (fun call mem => (each call mem).mono inside) executed
    · rintro event mem inserts tableRef key source ⟨spec, stamped, found, built, read, keyed⟩
      obtain ⟨last, memLast, sameTable, sameKey, sentLast⟩ := sentAll event (ordered.mpr ⟨mem, inserts⟩)
      obtain ⟨spec', tableRef', stamped', source', key', found', built', read', keyed', present⟩ :=
        present_of_sentIn each executed sentLast
      rw [sameTable, found] at found'
      cases found'
      obtain ⟨memEvents, insertsLast⟩ := ordered.mp memLast
      have same := keyValues_eq_of_carriesKey (carries event mem inserts)
        (carries last memEvents insertsLast) found sameTable sameKey built built' read read'
      rw [keyed, keyed'] at same
      cases same
      exact present

theorem applySnapshotChunk_adds {table : String} {rows : List SnapshotRow} {store : Store V}
    {next : Tables V} (reads : ReadsRegion repo server region) (known : region ≠ "")
    (full : SameColumns (Inbound.chunk table rows).sources)
    (additive : Additive repo server region store (.chunk table rows))
    (ran : applySnapshotChunk repo server region table rows store.tables = .ok next) :
    Adds repo server region (Inbound.chunk table rows).sources store.tables next ∧
    ∀ tableRef key source, (Inbound.chunk table rows).Delivers repo server region tableRef key source →
      (next tableRef key).isSome := by
  obtain ⟨calls, made, executed⟩ := executes_snapshot region table rows _ _ ran
  have issued := issued_snapshot known made
  obtain ⟨rfl, rfl⟩ | ⟨spec, tableRef, payloads, data, found, built, head, keyed, rfl⟩ :=
    snapshotCall_cases made
  · cases executed
    exact ⟨.refl _, fun _ _ _ ⟨_, mem, _⟩ => (nomatch mem)⟩
  · rw [execAll_single] at executed
    -- it may overwrite
    generalize conflictAction spec data.keys true = action at executed issued
    have insertion : Insertion repo region (Inbound.chunk table rows).sources
        (.insert tableRef data.keys spec.primaryKey action, ⟨payloads, []⟩) action := by
      refine .insertion found keyed fun stamped mem => ?_
      obtain ⟨row, memRow, stamps⟩ := Fallible.mem_of_mapM built mem
      obtain ⟨sample, memSample, sampled⟩ := Fallible.mem_of_mapM built (List.mem_of_mem_head? head)
      exact full.stamped (List.mem_map.mpr ⟨row, memRow, rfl⟩) (List.mem_map.mpr ⟨sample, memSample, rfl⟩)
        stamps sampled
    refine ⟨⟨?_, fun _ _ _ => insertion.adds executed⟩, ?_⟩
    · obtain ⟨touched, -, accounts⟩ := exec_accounts executed
      intro ref key target present
      by_cases here : ref = tableRef
      · subst here
        by_cases hit : key ∈ touched
        · have written := accounts.effect key hit
          have mine := not_foreign_of_effect reads (issued _ List.mem_cons_self) written present
          generalize next _ key = after at written
          cases written with
          | insert _ _ _ _ absent => cases absent.symm.trans present
          | overwrite _ mem read values =>
            obtain ⟨row, memRow, stamps⟩ := Fallible.mem_of_mapM built mem
            rw [keyValues_insertedRow keyed] at values
            exact absurd (additive row memRow ref key _ ⟨spec, _, found, stamps, read, values⟩ target
              present) mine
        · exact (accounts.untouched key hit).trans present
      · exact (congrFun (accounts.elsewhere ref here) key).trans present
    · rintro ref key source ⟨sent, mem, spec', stamped', found', stamps', read', values'⟩
      obtain ⟨row, memRow, rfl⟩ := List.mem_map.mp mem
      cases found.symm.trans found'
      obtain ⟨stamped, memPayloads, stamps⟩ := Fallible.exists_mem_of_mapM built memRow
      cases stamps.symm.trans stamps'
      obtain ⟨source'', key'', read, values, present⟩ := exec_insert_present executed memPayloads
      cases read.symm.trans read'
      rw [keyValues_insertedRow keyed, values'] at values
      cases values
      exact present

theorem applyInbound_adds {message : Inbound} {store next : Store V}
    (reads : ReadsRegion repo server region) (known : region ≠ "")
    (proper : Proper repo region store message) (additive : Additive repo server region store message)
    (ran : applyInbound repo server region .insertOnly store message = .ok next) :
    Adds repo server region message.sources store.tables next.tables ∧
    ∀ tableRef key source, message.Delivers repo server region tableRef key source →
      (next.tables tableRef key).isSome := by
  cases message with
  | batch sent =>
    obtain ⟨adds, inserted⟩ := applyBatch_adds proper.attributed proper.fresh proper.full
      (proper.keyed sent rfl) ran
    refine ⟨adds, ?_⟩
    rintro tableRef key source ⟨_, mem, delivered⟩
    obtain ⟨event, memEvent, rfl⟩ := List.mem_map.mp mem
    obtain ⟨memEvents, full⟩ := List.mem_filter.mp memEvent
    by_cases inserts : event.operation = .insert
    · exact inserted event memEvents inserts tableRef key source delivered
    · have upserts : event.operation = .upsert ∨ event.operation = .unset := by
        cases operation : event.operation <;> simp_all
      obtain ⟨row, present⟩ := Option.isSome_iff_exists.mp
        (additive event memEvents upserts tableRef key source delivered)
      rw [adds.kept tableRef key row present]
      rfl
  | chunk table rows =>
    obtain ⟨tables, applied, ran⟩ := Fallible.bind_eq_ok.mp ran
    cases ran
    exact applySnapshotChunk_adds reads known proper.full additive applied

end Messages

def insertedUser (version : Int) (id : String) : ReplicationEvent :=
  { userEvent "us" id version "eve" with operation := .insert }

/-- A transaction that inserts users. -/
def insertedUsers (version : Int) (ids : List String) : Inbound :=
  .batch ⟨.transactionBatch, ids.map (insertedUser version)⟩

theorem insertedUsers_proper {store : Store String} {version : Int} {ids : List String}
    (fresh : (insertedUsers version ids).Fresh store) :
    Proper usersRepository "us" store (insertedUsers version ids) where
  attributed := by simp [insertedUsers, Inbound.AttributedTo, insertedUser, userEvent]
  fresh
  full := by
    intro first mem second mem' _
    have columns : ∀ sent ∈ (insertedUsers version ids).sources,
        payloadColumns sent.2 = ["id", "name", "region"] := by
      intro sent mem
      obtain ⟨event, inside, rfl⟩ := List.mem_map.mp mem
      obtain ⟨id, -, rfl⟩ := List.mem_map.mp (List.mem_of_mem_filter inside)
      rfl
    rw [columns first mem, columns second mem']
  keyed sent same event mem _ spec tableRef found := by
    obtain rfl := usersRepository_spec found
    cases same
    obtain ⟨id, -, rfl⟩ := List.mem_map.mp mem
    intro column inKey
    rw [List.mem_singleton.mp inKey]
    rfl

theorem insertedUsers_additive (store : Store String) (version : Int) (ids : List String) :
    Additive usersRepository usersServer "us" store (insertedUsers version ids) := by
  simp [insertedUsers, Additive, insertedUser]

/-- The users after a transaction with one that is there and a new one. -/
def usersInserted : Store String :=
  (insertOnlyStep usersRepository usersServer "us" ownedUsers (insertedUsers 1 ["2", "4"])).getD ownedUsers

end Transmogr

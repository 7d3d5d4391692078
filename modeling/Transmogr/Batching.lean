import Transmogr.EventCalls

/-! The statements of a batch against those of its events one by one. Events on different rows
commute, so what can differ is the statement a group takes from its first payload, and what
constraints between rows make of the order. -/
namespace Transmogr.Batching

open Sql Slots

variable {V : Type} [DecidableEq V]

/-- No statement for no events. -/
def nonempty : List ReplicationEvent → List (List ReplicationEvent)
  | [] => []
  | first :: rest => [first :: rest]

/-- The events of one peer and table that share a statement: the puts, the updates whose field names
join to one text, the deletes. -/
def groupParts (mode : ReplicationApplyMode) (events : List ReplicationEvent) :
    List (List ReplicationEvent) :=
  nonempty (events.filter fun event => event.operation != .delete && event.operation != .update) ++
    (if mode = .insertOnly then [] else
      (Grouping.groups fieldSetKey (events.filter fun event => event.operation == .update)).map Prod.snd) ++
    nonempty (events.filter fun event => event.operation == .delete)

/-- The events by statement, as the batch issues them. -/
def parts (mode : ReplicationApplyMode) (events : List ReplicationEvent) : List (List ReplicationEvent) :=
  (Grouping.groups (fun event => (event.peerRegion, event.table)) events).flatMap fun group =>
    groupParts mode group.2

section Sharing

variable (repo : Repository) (server : Server V) (mode : ReplicationApplyMode) (spec : TableSpec)
  (tableRef : String) (tables : Tables V) (first event : ReplicationEvent)

/-- What the event writes with the statement of the first. -/
def sharedWrites : List (Write (String × List V) (Option (Row V))) :=
  callWrites server (eventStatement mode spec tableRef first,
    ⟨[eventPayload spec event], eventTexts spec first⟩)

/-- An event that can be executed alone, and with the statement of the first. -/
structure Shares : Prop where
  found : tableSpec repo event.table = .ok (spec, tableRef)
  complete : Complete spec event
  alone : eventCalls repo mode [event] = .ok [eventCall mode spec tableRef event]
  ready : Ready server (eventCall mode spec tableRef event)
  texts : eventTexts spec event = eventTexts spec first
  statement : (event.operation ≠ .update ∧
      eventStatement mode spec tableRef event = eventStatement mode spec tableRef first) ∨
    (event.operation = .update ∧ first.operation = .update)

/-- A row of the peer that the update finds has the value the payload gives, or NULL if it gives none,
in every column that only one of the two updates sets. -/
def Suits : Prop :=
  event.operation = .update → ∀ spec tableRef, tableSpec repo event.table = .ok (spec, tableRef) →
    ∀ key row, keyValues spec.primaryKey (populateRow server tableRef event.fields) = some key →
      tables tableRef key = some row →
      regionIs server (ownerRegionCondition spec)
        (UpdateDiff.regionTexts spec event.peerRegion).head? row = true →
      ∀ column, (column ∈ UpdateDiff.updateColumns spec first.fields ↔
          column ∈ UpdateDiff.updateColumns spec event.fields) ∨
        row column = populateRow server tableRef event.fields column

/-- The statement of the first event on the payloads of all. -/
def Issues (part : List ReplicationEvent) (call : Call) : Prop :=
  ∃ first rest spec tableRef, part = first :: rest ∧
    call = (eventStatement mode spec tableRef first,
      ⟨part.map (eventPayload spec), eventTexts spec first⟩) ∧
    ∀ event ∈ part, Shares repo server mode spec tableRef first event

variable {repo server mode spec tableRef tables first event} {part : List ReplicationEvent} {call : Call}

/-- Updates of the same fields share a statement. -/
theorem Suits.of_keys (same : event.fields.keys = first.fields.keys) :
    Suits repo server tables first event := by
  intro _ spec tableRef _ key row _ _ _ column
  exact .inl (by rw [UpdateDiff.updateColumns, UpdateDiff.updateColumns, same])

theorem callWrites_single (statement : Statement) (payload : Option Object) (texts : List String) :
    callWrites server (statement, ⟨[payload], texts⟩) =
      ((payloadWrite server statement texts payload).map fun write =>
        ⟨(statement.table, write.slot), write.act⟩).toList := by
  simp only [callWrites, rowWrites, List.filterMap_cons, List.filterMap_nil]
  cases payloadWrite server statement texts payload <;> rfl

theorem callWrites_join (statement : Statement) (payloads : List (Option Object)) (texts : List String) :
    callWrites server (statement, ⟨payloads, texts⟩) =
      payloads.flatMap fun payload => callWrites server (statement, ⟨[payload], texts⟩) := by
  induction payloads with
  | nil => rfl
  | cons payload rest ih =>
    rw [List.flatMap_cons, ← ih]
    simp only [callWrites, rowWrites, List.filterMap_cons, List.filterMap_nil]
    cases payloadWrite server statement texts payload <;> rfl

omit [DecidableEq V] in
theorem assign_eq_iff {row source : Row V} {columns columns' : List String} :
    assign row source columns = assign row source columns' ↔
      ∀ column, (column ∈ columns ↔ column ∈ columns') ∨ row column = source column := by
  rw [funext_iff]
  apply forall_congr'
  intro column
  by_cases left : column ∈ columns <;> by_cases right : column ∈ columns' <;>
    simp [assign, left, right, eq_comm]

section Shares

variable (shares : Shares repo server mode spec tableRef first event)

include shares

theorem Shares.eventWrites_eq :
    eventWrites repo server mode event = sharedWrites server mode spec tableRef event event := by
  rw [eventWrites, shares.alone]
  simp [Except.toOption, sharedWrites, eventCall]

theorem Shares.sharedWrites_eq (notUpdate : event.operation ≠ .update) :
    sharedWrites server mode spec tableRef first event = eventWrites repo server mode event := by
  obtain ⟨-, same⟩ | ⟨update, -⟩ := shares.statement
  · rw [shares.eventWrites_eq, sharedWrites, sharedWrites, same, shares.texts]
  · exact absurd update notUpdate

/-- An update with the columns of another one. -/
theorem Shares.updateWrites (update : event.operation = .update) {other : ReplicationEvent}
    (update' : other.operation = .update) (texts : eventTexts spec event = eventTexts spec other) :
    sharedWrites server mode spec tableRef other event =
      ((keyValues spec.primaryKey (populateRow server tableRef event.fields)).map fun key =>
        ⟨(tableRef, key), Option.map fun row => if regionIs server (ownerRegionCondition spec)
            (UpdateDiff.regionTexts spec event.peerRegion).head? row then
          assign row (populateRow server tableRef event.fields)
            (UpdateDiff.updateColumns spec other.fields) else row⟩).toList := by
  have payload : eventPayload spec event = some event.fields := by simp [eventPayload, update]
  have read := shares.ready.populated (List.mem_singleton.mpr payload.symm)
  have sent : eventTexts spec event = UpdateDiff.regionTexts spec event.peerRegion := by
    simp [eventTexts, update]
  simp only [eventCall, eventStatement_table] at read
  rw [sharedWrites, callWrites_single, payload, ← texts, sent]
  simp only [eventStatement, update', payloadWrite, Statement.table, read, Except.toOption,
    Option.bind_some, Statement.rowWrite, Statement.rowKey, Option.map_map]
  rfl

theorem Shares.parallel :
    Parallel (sharedWrites server mode spec tableRef first event) (eventWrites repo server mode event) := by
  by_cases update : event.operation = .update
  · obtain ⟨notUpdate, -⟩ | ⟨-, update'⟩ := shares.statement
    · exact absurd update notUpdate
    · rw [shares.eventWrites_eq, shares.updateWrites update update' shares.texts,
        shares.updateWrites update update rfl]
      cases keyValues spec.primaryKey (populateRow server tableRef event.fields) with
      | none => exact .inl ⟨rfl, rfl⟩
      | some key => exact .inr ⟨_, _, _, rfl, rfl⟩
  · rw [shares.sharedWrites_eq update, shares.eventWrites_eq, sharedWrites, callWrites_single]
    cases payloadWrite server (eventStatement mode spec tableRef event) (eventTexts spec event)
      (eventPayload spec event) with
    | none => exact .inl ⟨rfl, rfl⟩
    | some write => exact .inr ⟨_, _, _, rfl, rfl⟩

/-- The statement of the first event does what the event's own one does. -/
theorem Shares.agrees_iff :
    (∀ write ∈ sharedWrites server mode spec tableRef first event,
      ∀ write' ∈ eventWrites repo server mode event,
        write.act (slots tables write.slot) = write'.act (slots tables write.slot)) ↔
      Suits repo server tables first event := by
  by_cases update : event.operation = .update
  · obtain ⟨notUpdate, -⟩ | ⟨-, update'⟩ := shares.statement
    · exact absurd update notUpdate
    have only : ∀ spec' tableRef', tableSpec repo event.table = .ok (spec', tableRef') →
        spec' = spec ∧ tableRef' = tableRef := fun spec' tableRef' found =>
      Prod.mk.inj (Except.ok.inj (found.symm.trans shares.found))
    rw [shares.eventWrites_eq, shares.updateWrites update update' shares.texts,
      shares.updateWrites update update rfl]
    constructor
    · intro agree _ spec' tableRef' found key row keyed present owned
      obtain ⟨rfl, rfl⟩ := only spec' tableRef' found
      rw [keyed] at agree
      have same := agree _ List.mem_cons_self _ List.mem_cons_self
      simp only [slots, present, Option.map_some, owned, if_true, Option.some.injEq] at same
      exact assign_eq_iff.mp same
    · intro suits write mem write' mem'
      obtain ⟨key, keyed, rfl⟩ := Option.map_eq_some_iff.mp (Option.mem_toList.mp mem)
      obtain ⟨_, keyed', rfl⟩ := Option.map_eq_some_iff.mp (Option.mem_toList.mp mem')
      cases present : tables tableRef key with
      | none => simp [slots, present]
      | some row =>
        simp only [slots, present, Option.map_some, Option.some.injEq]
        split
        · next owned =>
          exact assign_eq_iff.mpr (suits update spec tableRef shares.found key row keyed present owned)
        · rfl
  · refine iff_of_true (fun write mem write' mem' => ?_) fun update' => absurd update' update
    rw [shares.sharedWrites_eq update] at mem
    rw [shares.eventWrites_eq, sharedWrites, callWrites_single] at mem mem'
    cases (Option.mem_toList.mp mem).symm.trans (Option.mem_toList.mp mem')
    rfl

end Shares

omit [DecidableEq V] in
theorem Issues.ready (issues : Issues repo server mode part call) : Ready server call := by
  obtain ⟨first, rest, spec, tableRef, rfl, rfl, shares⟩ := issues
  have head := (shares first List.mem_cons_self).ready
  refine ⟨head.count, head.known, fun payload mem => ?_⟩
  obtain ⟨event, inPart, rfl⟩ := List.mem_map.mp mem
  obtain ⟨source, read, takes⟩ := (shares event inPart).ready.reads _ List.mem_cons_self
  simp only [eventCall, eventStatement_table] at read takes
  refine ⟨source, ?_, ?_⟩
  · rw [eventStatement_table]
    exact read
  · obtain ⟨-, same⟩ | ⟨-, update⟩ := (shares event inPart).statement
    · rwa [← same]
    · simp [eventStatement, update, Statement.Takes]

end Sharing

section Groups

variable (repo : Repository) (server : Server V) (mode : ReplicationApplyMode)

/-- The statements are built, one for each part. -/
def Batched (parts : List (List ReplicationEvent)) (made : Except String (List Call)) : Prop :=
  ∃ calls, made = .ok calls ∧ List.Forall₂ (Issues repo server mode) parts calls

/-- Events of one peer and table that can be executed alone. -/
structure OneGroup (region table : String) (events : List ReplicationEvent) : Prop where
  peer : ∀ event ∈ events, event.peerRegion = region
  table_eq : ∀ event ∈ events, event.table = table
  executable : ∀ event ∈ events, Executable repo server mode event

variable {repo server mode} {events : List ReplicationEvent} {region table : String}

/-- Inserts and upserts of one table carry one field set. -/
def OneFieldSet (events : List ReplicationEvent) : Prop :=
  ∀ event ∈ events, ∀ other ∈ events, event.table = other.table →
    (event.operation ≠ .update ∧ event.operation ≠ .delete) →
    (other.operation ≠ .update ∧ other.operation ≠ .delete) → event.fields.keys = other.fields.keys

/-- Inserts and upserts of one peer and table send one list of columns. -/
def OneColumnSet (repo : Repository) (events : List ReplicationEvent) : Prop :=
  ∀ event ∈ events, ∀ other ∈ events, event.peerRegion = other.peerRegion → event.table = other.table →
    (event.operation ≠ .update ∧ event.operation ≠ .delete) →
    (other.operation ≠ .update ∧ other.operation ≠ .delete) →
    ∀ spec tableRef, tableSpec repo event.table = .ok (spec, tableRef) →
      (stamp spec event.peerRegion event.fields).keys = (stamp spec other.peerRegion other.fields).keys

theorem OneFieldSet.columns (oneSet : OneFieldSet events) : OneColumnSet repo events := by
  intro event mem other mem' peer table put put' spec _ _
  rw [peer, keys_stamp_congr (oneSet event mem other mem' table put put')]

theorem mem_operation {operation : ReplicationOperation} {event : ReplicationEvent} :
    (event ∈ events.filter fun event => event.operation == operation) ↔
      event ∈ events ∧ event.operation = operation := by
  simp

section Issued

omit [DecidableEq V]

theorem Batched.flatten {α : Type} {xs : List α} {parts : α → List (List ReplicationEvent)}
    {made : α → Except String (List Call)}
    (each : ∀ x ∈ xs, Batched repo server mode (parts x) (made x)) :
    Batched repo server mode (xs.flatMap parts) ((xs.mapM made).map List.flatten) := by
  induction xs with
  | nil => exact ⟨[], rfl, .nil⟩
  | cons x xs ih =>
    obtain ⟨⟨calls, first, issued⟩, tail⟩ := List.forall_mem_cons.mp each
    obtain ⟨more, rest, issuedRest⟩ := ih tail
    refine ⟨calls ++ more, ?_, List.rel_append issued issuedRest⟩
    rw [List.mapM_cons, first]
    cases flat : xs.mapM made with
    | error err => simp [flat, Except.map] at rest
    | ok lists =>
      simp only [flat, Except.map, Except.ok.injEq] at rest
      subst rest
      rfl

/-- The table is looked up for the first event. -/
theorem OneGroup.shares {first : ReplicationEvent} {rest : List ReplicationEvent}
    (group : OneGroup repo server mode region table (first :: rest))
    (issues : ∀ event ∈ first :: rest, ¬Skips mode event)
    (alike : ∀ spec tableRef, tableSpec repo table = .ok (spec, tableRef) → ∀ event ∈ first :: rest,
      eventTexts spec event = eventTexts spec first ∧
        ((event.operation ≠ .update ∧
          eventStatement mode spec tableRef event = eventStatement mode spec tableRef first) ∨
        (event.operation = .update ∧ first.operation = .update))) :
    ∃ spec tableRef, tableSpec repo first.table = .ok (spec, tableRef) ∧
      ∀ event ∈ first :: rest, Shares repo server mode spec tableRef first event := by
  have each : ∀ event ∈ first :: rest, ∃ spec tableRef, tableSpec repo table = .ok (spec, tableRef) ∧
      Shares repo server mode spec tableRef first event := by
    intro event mem
    obtain ⟨calls, made, ready⟩ := group.executable event mem
    obtain ⟨skips, -⟩ | ⟨-, spec, tableRef, found, complete, rfl⟩ := eventCalls_ready made ready
    · exact absurd skips (issues event mem)
    · have inTable := group.table_eq event mem ▸ found
      obtain ⟨texts, statement⟩ := alike spec tableRef inTable event mem
      exact ⟨spec, tableRef, inTable, found, complete, made, ready _ List.mem_cons_self, texts,
        statement⟩
  obtain ⟨spec, tableRef, found, -⟩ := each first List.mem_cons_self
  refine ⟨spec, tableRef, group.table_eq first List.mem_cons_self ▸ found, fun event mem => ?_⟩
  obtain ⟨spec', tableRef', found', shares⟩ := each event mem
  cases found.symm.trans found'
  exact shares

section OneGroup

variable (group : OneGroup repo server mode region table events)

include group

theorem OneGroup.of_mem {some : List ReplicationEvent} (within : ∀ event ∈ some, event ∈ events) :
    OneGroup repo server mode region table some where
  peer event mem := group.peer event (within event mem)
  table_eq event mem := group.table_eq event (within event mem)
  executable event mem := group.executable event (within event mem)

theorem batched_delete (deletes : ∀ event ∈ events, event.operation = .delete) :
    Batched repo server mode (nonempty events) (deleteCall repo events) := by
  cases events with
  | nil => exact ⟨[], rfl, .nil⟩
  | cons first rest =>
    obtain ⟨spec, tableRef, found, shares⟩ := group.shares (by simp +contextual [Skips, deletes])
      (by simp +contextual [eventTexts, eventStatement, deletes, group.peer])
    refine ⟨_, ?_, .cons ⟨first, rest, spec, tableRef, rfl, rfl, shares⟩ .nil⟩
    have payloads : (first :: rest).map (eventPayload spec) =
        (first :: rest).map fun event => primaryKeyPayload event.primaryKey := by
      apply List.map_congr_left
      intro event mem
      simp [eventPayload, deletes event mem]
    rw [payloads, deleteCall, found]
    simp [bind, Except.bind, pure, Except.pure, eventStatement, eventTexts, deletes]

theorem batched_partialUpdate (updates : mode ≠ .insertOnly) (ne : events ≠ [])
    (update : ∀ event ∈ events, event.operation = .update) :
    Batched repo server mode [events] (partialUpdateCall repo events) := by
  cases events with
  | nil => exact absurd rfl ne
  | cons first rest =>
    obtain ⟨spec, tableRef, found, shares⟩ := group.shares (fun _ _ skips => updates skips.1)
      (by simp +contextual [eventTexts, update, group.peer])
    have full : ∀ event ∈ first :: rest, fieldsToPayload event.fields = some event.fields ∧
        UpdateDiff.updateColumns spec event.fields ≠ [] := by
      intro event mem
      have complete := (shares event mem).complete
      simpa only [Complete, update event mem] using complete
    refine ⟨_, ?_, .cons ⟨first, rest, spec, tableRef, rfl, rfl, shares⟩ .nil⟩
    have payloads : (first :: rest).map (eventPayload spec) =
        (first :: rest).map fun event => fieldsToPayload event.fields := by
      apply List.map_congr_left
      intro event mem
      simp only [eventPayload, update event mem, full event mem]
    have head := full first List.mem_cons_self
    rw [payloads, partialUpdateCall, found]
    simp only [bind, Except.bind, pure, Except.pure, List.map_cons, List.head?_cons, Option.join_some,
      head.1, UpdateDiff.buildBatchPartialUpdateQuery_more head.2, eventStatement, eventTexts, update,
      List.mem_cons_self, UpdateDiff.regionTexts]

theorem batched_upsert
    (puts : ∀ event ∈ events, event.operation ≠ .update ∧ event.operation ≠ .delete)
    (sets : ∀ spec tableRef, tableSpec repo table = .ok (spec, tableRef) → ∀ event ∈ events,
      ∀ other ∈ events, (stamp spec event.peerRegion event.fields).keys =
        (stamp spec other.peerRegion other.fields).keys) :
    Batched repo server mode (nonempty events) (upsertCall repo mode events) := by
  cases events with
  | nil => exact ⟨[], rfl, .nil⟩
  | cons first rest =>
    have at_first := puts first List.mem_cons_self
    have alike : ∀ spec tableRef, tableSpec repo table = .ok (spec, tableRef) → ∀ event ∈ first :: rest,
        eventStatement mode spec tableRef event = eventStatement mode spec tableRef first := by
      intro spec tableRef found event mem
      rw [eventStatement_put at_first.1 at_first.2, eventStatement_put (puts event mem).1 (puts event mem).2,
        sets spec tableRef found event mem first List.mem_cons_self]
    obtain ⟨spec, tableRef, found, shares⟩ := group.shares
      (fun event mem skips => (puts event mem).1 skips.2) fun spec tableRef found event mem =>
        ⟨by rw [eventTexts_put (puts event mem).1 (puts event mem).2, eventTexts_put at_first.1 at_first.2],
          .inl ⟨(puts event mem).1, alike spec tableRef found event mem⟩⟩
    refine ⟨_, ?_, .cons ⟨first, rest, spec, tableRef, rfl, rfl, shares⟩ .nil⟩
    have payloads : (first :: rest).mapM (fun event => buildUpsertPayload (fieldsToPayload event.fields)
        (provenanceValues spec first.peerRegion)) = .ok ((first :: rest).map (eventPayload spec)) := by
      refine Fallible.mapM_eq_map fun event mem => ?_
      have complete := (shares event mem).complete.filled (puts event mem).2
      rw [eventPayload_put (puts event mem).1 (puts event mem).2, complete,
        group.peer first List.mem_cons_self, ← group.peer event mem, buildUpsertPayload_stamp]
    have query : buildBatchUpsertQuery spec tableRef
        ((first :: rest).map (eventPayload spec)).head?.join (mode ≠ .insertOnly) =
        .ok (eventStatement mode spec tableRef first) := by
      refine buildBatchUpsertQuery_eq_ok.mpr ⟨_, eventPayload_put at_first.1 at_first.2, ?_,
        eventStatement_put at_first.1 at_first.2⟩
      exact (shares first List.mem_cons_self).complete.put at_first.1 at_first.2
    refine Fallible.bind_eq_ok.mpr ⟨_, found, Fallible.bind_eq_ok.mpr ⟨_, payloads,
      Fallible.bind_eq_ok.mpr ⟨_, query, ?_⟩⟩⟩
    rw [eventTexts_put at_first.1 at_first.2]
    rfl

/-- In `insert_only` mode the updates have no statement. -/
theorem batched_partialUpdates (update : ∀ event ∈ events, event.operation = .update) :
    Batched repo server mode
      (if mode = .insertOnly then [] else (Grouping.groups fieldSetKey events).map Prod.snd)
      (partialUpdateCalls repo mode events) := by
  rw [partialUpdateCalls]
  split
  · exact ⟨[], rfl, .nil⟩
  · next updates =>
    rw [List.map_eq_flatMap]
    apply Batched.flatten
    intro part mem
    have within : ∀ event ∈ part.2, event ∈ events := fun _ => Grouping.mem_of_mem_groups mem
    exact batched_partialUpdate (group.of_mem within) updates
      (Grouping.groups_byKey fieldSetKey events part mem).1 fun event inPart =>
        update event (within event inPart)

theorem batched_group (oneSet : OneColumnSet repo events) :
    Batched repo server mode (groupParts mode events) (groupCalls repo mode events) := by
  have isPut : ∀ event ∈ events.filter fun event => event.operation != .delete && event.operation != .update,
      event ∈ events ∧ event.operation ≠ .update ∧ event.operation ≠ .delete := by
    simp +contextual
  obtain ⟨puts, madePuts, issuedPuts⟩ := batched_upsert
    (group.of_mem fun event mem => (isPut event mem).1) (fun event mem => (isPut event mem).2)
    fun spec tableRef found event mem other mem' => by
      obtain ⟨inside, put⟩ := isPut event mem
      obtain ⟨inside', put'⟩ := isPut other mem'
      exact oneSet event inside other inside'
        ((group.peer event inside).trans (group.peer other inside').symm)
        ((group.table_eq event inside).trans (group.table_eq other inside').symm) put put' spec tableRef
        ((group.table_eq event inside).symm ▸ found)
  obtain ⟨updates, madeUpdates, issuedUpdates⟩ := batched_partialUpdates
    (group.of_mem fun event mem => (mem_operation.mp mem).1) fun event mem => (mem_operation.mp mem).2
  obtain ⟨deletes, madeDeletes, issuedDeletes⟩ := batched_delete
    (group.of_mem fun event mem => (mem_operation.mp mem).1) fun event mem => (mem_operation.mp mem).2
  refine ⟨puts ++ updates ++ deletes, ?_,
    List.rel_append (List.rel_append issuedPuts issuedUpdates) issuedDeletes⟩
  rw [groupCalls, madePuts, madeUpdates, madeDeletes]
  rfl

end OneGroup

/-- The batch issues the statement of each part. -/
theorem batched_events (executable : ∀ event ∈ events, Executable repo server mode event)
    (distinct : events.Pairwise fun event other =>
      event.table = other.table → event.primaryKey ≠ other.primaryKey)
    (oneSet : OneColumnSet repo events) :
    Batched repo server mode (parts mode events) (eventCalls repo mode events) := by
  apply Batched.flatten
  intro group mem
  have within : ∀ event ∈ group.2, event ∈ events := fun _ => Grouping.mem_of_mem_groups mem
  have alike := (Grouping.groups_byKey _ events group mem).2
  have unique : Grouping.lastPerKey (·.primaryKey) group.2 = group.2 := by
    apply Grouping.lastPerKey_of_pairwise
    have apart := Grouping.groups_pairwise (fun differ same => (differ same.symm).symm) distinct mem
    refine apart.imp_of_mem fun {event other} inGroup inGroup' differ => differ ?_
    exact (congrArg Prod.snd (alike event inGroup)).trans (congrArg Prod.snd (alike other inGroup')).symm
  rw [unique]
  refine @batched_group V repo server mode group.2 group.1.1 group.1.2 ⟨?_, ?_, ?_⟩ ?_
  · exact fun event inGroup => congrArg Prod.fst (alike event inGroup)
  · exact fun event inGroup => congrArg Prod.snd (alike event inGroup)
  · exact fun event inGroup => executable event (within event inGroup)
  · exact fun event inGroup other inGroup' =>
      oneSet event (within event inGroup) other (within other inGroup')

end Issued

theorem operations_perm (events : List ReplicationEvent) :
    ((events.filter fun event => event.operation != .delete && event.operation != .update) ++
      (events.filter fun event => event.operation == .update) ++
      events.filter fun event => event.operation == .delete).Perm events := by
  induction events with
  | nil => exact .nil
  | cons event rest ih =>
    cases op : event.operation with
    | delete =>
      simp only [List.filter_cons, op]
      exact List.perm_middle.trans (ih.cons event)
    | update =>
      simp only [List.filter_cons, op, List.append_assoc] at ih ⊢
      exact List.perm_middle.trans (ih.cons event)
    | unset | insert | upsert =>
      simp only [List.filter_cons, op] at ih ⊢
      exact ih.cons event

variable (repo server mode) in
/-- What the events of a part write alone. -/
def partWrites (part : List ReplicationEvent) : List (Write (String × List V) (Option (Row V))) :=
  part.flatMap (eventWrites repo server mode)

theorem flatMap_nonempty (part : List ReplicationEvent) :
    (nonempty part).flatMap (partWrites repo server mode) = part.flatMap (eventWrites repo server mode) := by
  cases part <;> simp [nonempty, partWrites]

/-- A skipped update writes nothing. -/
theorem updateParts_perm (executable : ∀ event ∈ events, Executable repo server mode event)
    (update : ∀ event ∈ events, event.operation = .update) :
    ((if mode = .insertOnly then [] else (Grouping.groups fieldSetKey events).map Prod.snd).flatMap
      (partWrites repo server mode)).Perm (events.flatMap (eventWrites repo server mode)) := by
  split
  · next insertOnly =>
    have silent : events.flatMap (eventWrites repo server mode) = [] := by
      apply List.flatMap_eq_nil_iff.mpr
      intro event mem
      obtain ⟨calls, made, ready⟩ := executable event mem
      obtain ⟨-, rfl⟩ | ⟨issues, -⟩ := eventCalls_ready made ready
      · rw [eventWrites, made]
        rfl
      · exact absurd ⟨insertOnly, update event mem⟩ issues
    rw [silent]
    exact .nil
  · have perm := (Grouping.groups_perm fieldSetKey events).flatMap_right (eventWrites repo server mode)
    rwa [List.flatMap_assoc, ← List.flatMap_map] at perm

/-- The parts hold every event that writes once. -/
theorem parts_perm (executable : ∀ event ∈ events, Executable repo server mode event) :
    ((parts mode events).flatMap (partWrites repo server mode)).Perm
      (events.flatMap (eventWrites repo server mode)) := by
  have each : ∀ group ∈ Grouping.groups (fun event => (event.peerRegion, event.table)) events,
      ((groupParts mode group.2).flatMap (partWrites repo server mode)).Perm
        (group.2.flatMap (eventWrites repo server mode)) := by
    intro group mem
    have updates := @updateParts_perm V _ repo server mode
      (group.2.filter fun event => event.operation == .update)
      (fun event inPart => executable event (Grouping.mem_of_mem_groups mem (mem_operation.mp inPart).1))
      fun event inPart => (mem_operation.mp inPart).2
    refine List.Perm.trans ?_ ((operations_perm group.2).flatMap_right _)
    simp only [groupParts, List.flatMap_append, flatMap_nonempty]
    exact (updates.append_left _).append_right _
  have perm := (Grouping.groups_perm (fun event => (event.peerRegion, event.table)) events).flatMap_right
    (eventWrites repo server mode)
  rw [List.flatMap_assoc] at perm
  rw [parts, List.flatMap_assoc]
  exact (List.Perm.flatMap_left _ each).trans perm

end Groups

section Constraints

variable (server : Server V) (constraints : String → List (List String))

/-- The constraints hold: no two rows have the same values in the columns of one. A NULL differs from
everything. -/
def Accepts (tables : Tables V) : Prop :=
  ∀ table, ∀ columns ∈ constraints table, ∀ key key' values, key ≠ key' →
    (tables table key).bind (keyValues columns) = some values →
      (tables table key').bind (keyValues columns) ≠ some values

/-- The statements are executed one after another, the constraints checked after each. -/
def Passes : List Call → Tables V → Tables V → Prop
  | [], tables, next => next = tables
  | call :: rest, tables, next => ∃ middle, exec server call.1 call.2 tables = .ok middle ∧
      Accepts constraints middle ∧ Passes rest middle next

/-- `applyEventsBatch` under the constraints. -/
def BatchPasses (repo : Repository) (mode : ReplicationApplyMode) (events : List ReplicationEvent)
    (tables next : Tables V) : Prop :=
  ∃ calls, eventCalls repo mode events = .ok calls ∧ Passes server constraints calls tables next

/-- Each event as a batch of its own. -/
def EachPasses (repo : Repository) (mode : ReplicationApplyMode) :
    List ReplicationEvent → Tables V → Tables V → Prop
  | [], tables, next => next = tables
  | event :: rest, tables, next => ∃ middle,
      BatchPasses server constraints repo mode [event] tables middle ∧ EachPasses repo mode rest middle next

/-- The row of a write and what the write leaves of it. -/
def effect (tables : Tables V) (write : Write (String × List V) (Option (Row V))) :
    (String × List V) × Option (Row V) :=
  (write.slot, write.act (slots tables write.slot))

/-- The row is left with the values that the other one has before, in the columns of a constraint. -/
def Reuses (tables : Tables V) (left other : (String × List V) × Option (Row V)) : Prop :=
  left.1.1 = other.1.1 ∧ ∃ columns ∈ constraints left.1.1,
    ((slots tables other.1).bind (keyValues columns)).isSome ∧
      left.2.bind (keyValues columns) = (slots tables other.1).bind (keyValues columns)

instance (tables : Tables V) (left other : (String × List V) × Option (Row V)) :
    Decidable (Reuses constraints tables left other) :=
  inferInstanceAs (Decidable (_ ∧ _))

/-- No statement leaves a row with values that a row of a later one has before. -/
def NoReuse (tables : Tables V) (statements : List (List ((String × List V) × Option (Row V)))) : Prop :=
  statements.Pairwise fun done later => ∀ left ∈ done, ∀ other ∈ later,
    ¬Reuses constraints tables left other

variable {server constraints} {repo : Repository} {mode : ReplicationApplyMode}
  {events : List ReplicationEvent} {calls : List Call} {tables next final state : Tables V}

theorem Passes.execAll (passes : Passes server constraints calls tables next) :
    execAll server calls tables = .ok next := by
  induction calls generalizing tables with
  | nil =>
    cases passes
    rfl
  | cons call rest ih =>
    obtain ⟨middle, ran, -, later⟩ := passes
    exact Fallible.bind_eq_ok.mpr ⟨middle, ran, ih later⟩

theorem Passes.accepts (passes : Passes server constraints calls tables next)
    (accepted : Accepts constraints tables) : Accepts constraints next := by
  induction calls generalizing tables with
  | nil =>
    cases passes
    exact accepted
  | cons call rest ih =>
    obtain ⟨middle, -, accepted, later⟩ := passes
    exact ih later accepted

theorem passes_none : Passes server (fun _ => []) calls tables next ↔
    Transmogr.execAll server calls tables = .ok next := by
  refine ⟨Passes.execAll, fun ran => ?_⟩
  induction calls generalizing tables with
  | nil =>
    cases ran
    rfl
  | cons call rest ih =>
    obtain ⟨middle, first, later⟩ := Fallible.bind_eq_ok.mp ran
    exact ⟨middle, first, fun table columns mem => absurd mem List.not_mem_nil, ih later⟩

/-- Where there is nothing to check it is `applyEventsBatch` itself. -/
theorem batchPasses_none :
    BatchPasses server (fun _ => []) repo mode events tables next ↔
      applyEventsBatch repo server mode events tables = .ok next := by
  simp only [BatchPasses, passes_none, issues_events mode events tables next]

theorem BatchPasses.applies (passes : BatchPasses server constraints repo mode events tables next) :
    applyEventsBatch repo server mode events tables = .ok next := by
  obtain ⟨calls, made, passes⟩ := passes
  exact (issues_events mode events tables next).mpr ⟨calls, made, passes.execAll⟩

theorem EachPasses.applies (passes : EachPasses server constraints repo mode events tables next) :
    applyEach repo server mode events tables = .ok next := by
  induction events generalizing tables with
  | nil =>
    cases passes
    rfl
  | cons event rest ih =>
    obtain ⟨middle, first, later⟩ := passes
    exact Fallible.bind_eq_ok.mpr ⟨middle, first.applies, ih later⟩

theorem EachPasses.accepts (passes : EachPasses server constraints repo mode events tables next)
    (accepted : Accepts constraints tables) : Accepts constraints next := by
  induction events generalizing tables with
  | nil =>
    cases passes
    exact accepted
  | cons event rest ih =>
    obtain ⟨middle, ⟨calls, -, first⟩, later⟩ := passes
    exact ih later (first.accepts accepted)

section Between

variable {done rest : List (Write (String × List V) (Option (Row V)))}
  (apart : Apart (done ++ rest)) (here : slots state = run (slots tables) done)
  (whole : slots final = run (slots tables) (done ++ rest))
  (accepted : Accepts constraints tables) (accepted' : Accepts constraints final)

include apart here whole accepted accepted'

/-- On the way a row still to be written is as at the start, another one as at the end. -/
theorem accepts_iff :
    Accepts constraints state ↔
      ∀ write ∈ done, ∀ later ∈ rest,
        ¬Reuses constraints tables (effect tables write) (effect tables later) := by
  have differ := (List.pairwise_append.mp apart).2.2
  have written : ∀ write ∈ done, slots state write.slot = write.act (slots tables write.slot) := by
    intro write mem
    rw [here, run_of_mem (List.pairwise_append.mp apart).1 mem]
  have untouched : ∀ slot, (∀ write ∈ done, write.slot ≠ slot) → slots state slot = slots tables slot := by
    intro slot absent
    rw [here, run_of_absent absent]
  have finished : ∀ slot, (∀ later ∈ rest, later.slot ≠ slot) → slots state slot = slots final slot := by
    intro slot absent
    rw [here, whole, run_append, run_of_absent absent]
  constructor
  · rintro clear write mem later mem' ⟨inTable, columns, listed, some, same⟩
    simp only [effect] at inTable listed some same
    obtain ⟨values, has⟩ := Option.isSome_iff_exists.mp some
    have other : slots state later.slot = slots tables later.slot :=
      untouched _ fun earlier inDone => differ earlier inDone later mem'
    refine clear write.slot.1 columns listed write.slot.2 later.slot.2 values ?_ ?_ ?_
    · exact fun sameKey => differ write mem later mem' (Prod.ext inTable sameKey)
    · change (slots state write.slot).bind (keyValues columns) = _
      rw [written write mem, same, has]
    · rw [inTable]
      change (slots state later.slot).bind (keyValues columns) = _
      rw [other, has]
  · intro clear
    have pending : ∀ {slot}, (∃ later ∈ rest, later.slot = slot) → slots state slot = slots tables slot := by
      rintro _ ⟨later, mem, rfl⟩
      exact untouched _ fun write inDone => differ write inDone later mem
    -- A row that is still to be written against one that is final.
    have mixed : ∀ table, ∀ columns ∈ constraints table, ∀ key key' values, key ≠ key' →
        (∃ later ∈ rest, later.slot = (table, key)) →
        (slots state (table, key)).bind (keyValues columns) = some values →
          (slots state (table, key')).bind (keyValues columns) ≠ some values := by
      intro table columns listed key key' values other inRest has has'
      rw [pending inRest] at has
      by_cases inDone : ∃ write ∈ done, write.slot = (table, key')
      · obtain ⟨later, mem', at_key⟩ := inRest
        obtain ⟨write, mem, at_key'⟩ := inDone
        rw [← at_key', written write mem] at has'
        rw [← at_key] at has
        have tableOf : write.slot.1 = table := congrArg Prod.fst at_key'
        exact clear write mem later mem' ⟨tableOf.trans (congrArg Prod.fst at_key).symm, columns,
          tableOf ▸ listed, Option.isSome_iff_exists.mpr ⟨values, has⟩, has'.trans has.symm⟩
      · rw [untouched _ fun write mem at_key => inDone ⟨write, mem, at_key⟩] at has'
        exact accepted table columns listed key key' values other has has'
    intro table columns listed key key' values other has has'
    by_cases inRest : ∃ later ∈ rest, later.slot = (table, key)
    · exact mixed table columns listed key key' values other inRest has has'
    by_cases inRest' : ∃ later ∈ rest, later.slot = (table, key')
    · exact mixed table columns listed key' key values other.symm inRest' has' has
    · have final_eq : ∀ {slot}, (¬∃ later ∈ rest, later.slot = slot) → slots state slot = slots final slot :=
        fun absent => finished _ fun later mem at_slot => absent ⟨later, mem, at_slot⟩
      refine accepted' table columns listed key key' values other ?_ ?_
      · exact (congrArg (Option.bind · (keyValues columns)) (final_eq inRest)).symm.trans has
      · exact (congrArg (Option.bind · (keyValues columns)) (final_eq inRest')).symm.trans has'

end Between

/-- Statements that write no row twice pass if and only if none of them reuses values that a later one
frees. -/
theorem passes_iff {done : List (Write (String × List V) (Option (Row V)))}
    (ready : ∀ call ∈ calls, Ready server call)
    (apart : Apart (done ++ calls.flatMap (callWrites server)))
    (here : slots state = run (slots tables) done)
    (whole : slots final = run (slots tables) (done ++ calls.flatMap (callWrites server)))
    (accepted : Accepts constraints tables) (accepted' : Accepts constraints final)
    (clear : ∀ write ∈ done, ∀ call ∈ calls, ∀ later ∈ callWrites server call,
      ¬Reuses constraints tables (effect tables write) (effect tables later)) :
    Passes server constraints calls state final ↔ NoReuse constraints tables
      (calls.map fun call => (callWrites server call).map (effect tables)) := by
  rw [NoReuse, List.pairwise_map]
  simp only [List.forall_mem_map]
  induction calls generalizing done state with
  | nil =>
    rw [List.flatMap_nil, List.append_nil, ← here] at whole
    exact iff_of_true (slots_injective whole) .nil
  | cons call rest ih =>
    obtain ⟨readyCall, readyRest⟩ := List.forall_mem_cons.mp ready
    rw [List.flatMap_cons, ← List.append_assoc] at apart whole
    have apartCall : Apart (callWrites server call) :=
      (List.pairwise_append.mp (List.pairwise_append.mp apart).1).2.1
    have ran := @exec_of_ready V _ server call state readyCall (apart_rowWrites apartCall)
    have there : slots (setTable state call.1.table (run (state call.1.table) (rowWrites server call))) =
        run (slots tables) (done ++ callWrites server call) := by
      rw [slots_setTable, here, run_append]
      rfl
    have checked := accepts_iff apart there whole accepted accepted'
    simp only [List.forall_mem_flatMap] at checked
    rw [List.pairwise_cons]
    constructor
    · rintro ⟨middle, ran', accepts, later⟩
      cases ran.symm.trans ran'
      have settled := checked.mp accepts
      refine ⟨fun call' mem write inCall => settled write (List.mem_append_right _ inCall) call' mem, ?_⟩
      exact (ih readyRest apart there whole settled).mp later
    · rintro ⟨head, tail⟩
      have settled : ∀ write ∈ done ++ callWrites server call, ∀ call' ∈ rest,
          ∀ later ∈ callWrites server call',
            ¬Reuses constraints tables (effect tables write) (effect tables later) := by
        intro write mem call' inRest
        rcases List.mem_append.mp mem with old | new
        · exact clear write old call' (List.mem_cons_of_mem call inRest)
        · exact head call' inRest write new
      exact ⟨_, ran, checked.mpr settled, (ih readyRest apart there whole settled).mpr tail⟩

section Parts

variable {parts : List (List ReplicationEvent)}

theorem Issues.callWrites_eq {part : List ReplicationEvent} {call : Call}
    (issues : Issues repo server mode part call) :
    ∃ spec tableRef, ∃ first ∈ part.head?,
      (∀ event ∈ part, Shares repo server mode spec tableRef first event) ∧
      callWrites server call = part.flatMap (sharedWrites server mode spec tableRef first) := by
  obtain ⟨first, rest, spec, tableRef, rfl, rfl, shares⟩ := issues
  refine ⟨spec, tableRef, first, rfl, shares, ?_⟩
  rw [callWrites_join, List.flatMap_map]
  rfl

/-- Each event has the effect of its own statement with that of the first of its part. -/
def Agree (repo : Repository) (server : Server V) (tables : Tables V)
    (parts : List (List ReplicationEvent)) : Prop :=
  ∀ part ∈ parts, ∀ first ∈ part.head?, ∀ event ∈ part, Suits repo server tables first event

/-- The events with the statements they are executed by. -/
theorem exists_shared (issued : List.Forall₂ (Issues repo server mode) parts calls) :
    ∃ xs : List (TableSpec × String × ReplicationEvent × ReplicationEvent),
      (∀ x ∈ xs, Shares repo server mode x.1 x.2.1 x.2.2.1 x.2.2.2) ∧
      calls.flatMap (callWrites server) =
        xs.flatMap (fun x => sharedWrites server mode x.1 x.2.1 x.2.2.1 x.2.2.2) ∧
      parts.flatMap (partWrites repo server mode) =
        xs.flatMap (fun x => eventWrites repo server mode x.2.2.2) ∧
      ((∀ x ∈ xs, Suits repo server tables x.2.2.1 x.2.2.2) ↔ Agree repo server tables parts) := by
  induction issued with
  | nil => exact ⟨[], nofun, rfl, rfl, by simp [Agree]⟩
  | @cons part call parts calls issues _ ih =>
    obtain ⟨xs, sharesRest, calls_eq, parts_eq, suits⟩ := ih
    obtain ⟨spec, tableRef, first, head, shares, call_eq⟩ := issues.callWrites_eq
    refine ⟨part.map (fun event => (spec, tableRef, first, event)) ++ xs, ?_, ?_, ?_, ?_⟩
    · exact List.forall_mem_append.mpr ⟨List.forall_mem_map.mpr shares, sharesRest⟩
    · rw [List.flatMap_cons, List.flatMap_append, List.flatMap_map, call_eq, calls_eq]
    · rw [List.flatMap_cons, List.flatMap_append, List.flatMap_map, parts_eq]
      rfl
    · rw [List.forall_mem_append, List.forall_mem_map, suits, Agree, Agree, List.forall_mem_cons]
      refine and_congr_left fun _ => ⟨fun each first' head' => ?_, fun each => each first head⟩
      cases head.symm.trans head'
      exact each

/-- The statements write different rows if the events do, and leave what these leave if and only if
each update suits the statement it shares. -/
theorem run_calls_iff (issued : List.Forall₂ (Issues repo server mode) parts calls)
    (apart : Apart (parts.flatMap (partWrites repo server mode))) :
    Apart (calls.flatMap (callWrites server)) ∧
      (run (slots tables) (calls.flatMap (callWrites server)) =
          run (slots tables) (parts.flatMap (partWrites repo server mode)) ↔
        Agree repo server tables parts) := by
  obtain ⟨xs, shares, calls_eq, parts_eq, suits⟩ := @exists_shared V _ server _ _ _ tables _ issued
  have parallel := fun x mem => (shares x mem).parallel
  rw [parts_eq] at apart ⊢
  rw [calls_eq, apart_flatMap_iff parallel, ← suits, run_flatMap_eq_iff parallel apart]
  exact ⟨apart, forall₂_congr fun x mem => (shares x mem).agrees_iff⟩

omit [DecidableEq V] in
theorem issued_ready (issued : List.Forall₂ (Issues repo server mode) parts calls) :
    ∀ call ∈ calls, Ready server call := by
  induction issued with
  | nil => exact nofun
  | cons issues _ ih => exact List.forall_mem_cons.mpr ⟨issues.ready, ih⟩

/-- Then the parts leave what the statements leave. -/
theorem map_effects (issued : List.Forall₂ (Issues repo server mode) parts calls)
    (agree : Agree repo server tables parts) :
    (calls.map fun call => (callWrites server call).map (effect tables)) =
      parts.map fun part => (partWrites repo server mode part).map (effect tables) := by
  induction issued with
  | nil => rfl
  | @cons part call parts calls issues _ ih =>
    obtain ⟨agreePart, agreeRest⟩ := List.forall_mem_cons.mp agree
    obtain ⟨spec, tableRef, first, head, shares, call_eq⟩ := issues.callWrites_eq
    rw [List.map_cons, List.map_cons, ih agreeRest, call_eq, partWrites, List.map_flatMap, List.map_flatMap]
    congr 1
    apply List.flatMap_congr
    intro event mem
    have same := (shares event mem).agrees_iff.mpr (agreePart first head event mem)
    obtain ⟨nothing, nothing'⟩ | ⟨slot, act, act', single, single'⟩ := (shares event mem).parallel
    · rw [nothing, nothing']
    · rw [single, single'] at same ⊢
      simpa [effect] using same

/-- Then the batch does what its events do one by one. -/
theorem applyEventsBatch_of_agree (executable : ∀ event ∈ events, Executable repo server mode event)
    (distinct : events.Pairwise fun event other =>
      event.table = other.table → event.primaryKey ≠ other.primaryKey)
    (oneSet : OneColumnSet repo events)
    (rows : Apart (events.flatMap (eventWrites repo server mode)))
    (agree : Agree repo server tables (Batching.parts mode events)) :
    ∃ next, applyEventsBatch repo server mode events tables = .ok next ∧
      slots next = run (slots tables) (events.flatMap (eventWrites repo server mode)) := by
  obtain ⟨calls, made, issued⟩ := batched_events executable distinct oneSet
  have perm := parts_perm executable
  obtain ⟨apart, agree_iff⟩ := @run_calls_iff V _ server _ _ _ tables _ issued ((apart_perm perm).mpr rows)
  obtain ⟨next, ran, written⟩ := @execAll_of_ready V _ server calls tables (issued_ready issued)
    (List.pairwise_flatMap.mp apart).1
  refine ⟨next, (issues_events mode events tables next).mpr ⟨calls, made, ran⟩, ?_⟩
  rw [written, agree_iff.mpr agree, run_perm rows perm.symm]

/-- Updates whose joined field names tell their field sets apart. -/
theorem agree_of_fieldSets
    (told : ∀ first ∈ events, ∀ event ∈ events, first.operation = .update → event.operation = .update →
      fieldSetKey first = fieldSetKey event → event.fields.keys = first.fields.keys) :
    Agree repo server tables (Batching.parts mode events) := by
  intro part mem first head event inPart update
  obtain ⟨group, grouped, mem⟩ := List.mem_flatMap.mp mem
  have within : ∀ event ∈ group.2, event ∈ events := fun _ => Grouping.mem_of_mem_groups grouped
  have other : ∀ kept : ReplicationEvent → Bool, (∀ event, kept event = true → event.operation ≠ .update) →
      part ∉ nonempty (group.2.filter kept) := by
    intro kept never mem
    cases members : group.2.filter kept with
    | nil => simp [members, nonempty] at mem
    | cons e rest =>
      rw [members, nonempty, List.mem_singleton] at mem
      have inFilter : event ∈ group.2.filter kept := by rw [members, ← mem]; exact inPart
      exact never event (List.mem_filter.mp inFilter).2 update
  simp only [groupParts, List.mem_append] at mem
  rcases mem with (put | mem) | delete
  · exact absurd put (other _ (by simp))
  · split at mem
    · cases mem
    · obtain ⟨pair, paired, rfl⟩ := List.mem_map.mp mem
      have keyed := (Grouping.groups_byKey _ _ pair paired).2
      have inGroup : ∀ event ∈ pair.2, event ∈ group.2 ∧ event.operation = .update :=
        fun event mem => mem_operation.mp (Grouping.mem_of_mem_groups paired mem)
      have firstIn := List.mem_of_mem_head? head
      exact Suits.of_keys (told first (within _ (inGroup _ firstIn).1) event
        (within _ (inGroup _ inPart).1) (inGroup _ firstIn).2 update
        ((keyed first firstIn).trans (keyed event inPart).symm)) update
  · exact absurd delete (other _ (by simp +contextual))

end Parts

/-- A batch on different rows does what its events do one by one if and only if each update suits the
statement it shares, and no statement takes values of a constraint that a later one frees. -/
theorem batch_agrees
    (distinct : events.Pairwise fun event other =>
      event.table = other.table → event.primaryKey ≠ other.primaryKey)
    (rows : Apart (events.flatMap (eventWrites repo server mode)))
    (oneSet : OneFieldSet events) (accepted : Accepts constraints tables)
    (each : EachPasses server constraints repo mode events tables final) :
    BatchPasses server constraints repo mode events tables final ↔
      Agree repo server tables (parts mode events) ∧ NoReuse constraints tables
        ((parts mode events).map fun part => (partWrites repo server mode part).map (effect tables)) := by
  obtain ⟨executable, written⟩ := applyEach_eq_ok.mp each.applies
  obtain ⟨calls, made, issued⟩ := batched_events executable distinct oneSet.columns
  have perm := parts_perm executable
  rw [run_perm rows perm.symm] at written
  obtain ⟨apartCalls, agree_iff⟩ := @run_calls_iff V _ server _ _ _ tables _ issued
    ((apart_perm perm).mpr rows)
  rw [← written] at agree_iff
  have passes_iff := fun whole => @passes_iff V _ server constraints calls tables final tables []
    (issued_ready issued) apartCalls rfl whole accepted (each.accepts accepted) nofun
  constructor
  · rintro ⟨calls', made', passes⟩
    cases made.symm.trans made'
    have whole : slots final = run (slots tables) (calls.flatMap (callWrites server)) :=
      ((execAll_eq_ok (List.pairwise_flatMap.mp apartCalls).1).mp passes.execAll).2
    have agree := agree_iff.mp whole.symm
    refine ⟨agree, ?_⟩
    rw [← map_effects issued agree]
    exact (passes_iff whole).mp passes
  · rintro ⟨agree, clear⟩
    rw [← map_effects issued agree] at clear
    exact ⟨calls, made, (passes_iff (agree_iff.mpr agree).symm).mpr clear⟩

end Constraints

def pairsSpec : TableSpec := ⟨"pairs", ["id"], "updated_at", ""⟩

def pairsRepository : Repository := ⟨.ofList [("pairs", pairsSpec)]⟩

def pairsServer : Server String := textServer fun _ => ["id", "a", "b", "a,b"]

def pairEvent (id : String) (fields : List (String × Bytes)) : ReplicationEvent where
  peerRegion := "us"
  table := "pairs"
  eventID := "event"
  primaryKey := userKey id
  operation := .update
  version := 1
  fields := .ofList (("id", Json.quote id) :: fields)

/-- Two updates of different columns whose names join to one text. -/
def pairEvents : List ReplicationEvent :=
  [pairEvent "1" [("a,b", Json.quote "x")], pairEvent "2" [("a", Json.quote "y"), ("b", Json.quote "z")]]

def pairTables : Tables String := fun _ key =>
  key.head?.map fun id column => if column = "id" then some id else some "old"

/-- The second update takes the statement of the first: it sets another column to NULL, and not its
own. -/
example :
    (applyEach pairsRepository pairsServer .fullSync pairEvents pairTables).map (fun tables =>
      (tables "\"pairs\"" ["2"]).map fun row => (row "a", row "b", row "a,b")) =
        .ok (some (some "y", some "z", some "old")) ∧
    (applyEventsBatch pairsRepository pairsServer .fullSync pairEvents pairTables).map (fun tables =>
      (tables "\"pairs\"" ["2"]).map fun row => (row "a", row "b", row "a,b")) =
        .ok (some (some "old", some "old", none)) :=
  ⟨rfl, rfl⟩

def uniqueNames (table : String) : List (List String) := if table = "\"users\"" then [["name"]] else []

def userCall (event : ReplicationEvent) : Call := eventCall .fullSync usersSpec "\"users\"" event

/-- The users after one event. -/
def userStep (tables : Tables String) (event : ReplicationEvent) : Tables String :=
  (exec usersServer (userCall event).1 (userCall event).2 tables).toOption.getD tables

/-- The table has no other keys. -/
def OnlyKeys (keys : List (List String)) (tables : Tables String) : Prop :=
  ∀ key, key ∉ keys → tables "\"users\"" key = none

section Users

variable {tables : Tables String} {keys : List (List String)} {event : ReplicationEvent}

theorem onlyKeys_userStep (only : OnlyKeys keys tables)
    (within : ∀ write ∈ rowWrites usersServer (userCall event), write.slot ∈ keys) :
    OnlyKeys keys (userStep tables event) := by
  unfold userStep
  cases ran : exec usersServer (userCall event).1 (userCall event).2 tables with
  | error err => exact only
  | ok next =>
    intro key outside
    cases (exec_of_ready (exec_ready ran) (apart_rowWrites (apart_eventCall _ _ event))).symm.trans ran
    have absent : ∀ write ∈ rowWrites usersServer (userCall event), write.slot ≠ key :=
      fun write mem same => outside (same ▸ within write mem)
    have users : (userCall event).1.table = "\"users\"" := eventStatement_table _ _ _ event
    simp only [Except.toOption, Option.getD_some, setTable, users, if_true]
    rw [run_of_absent absent]
    exact only key outside

/-- A constraint on a table with few rows is checked row by row. -/
theorem accepts_names (only : OnlyKeys keys tables)
    (differ : ∀ key ∈ keys, ∀ key' ∈ keys, key ≠ key' →
      ((tables "\"users\"" key).bind (keyValues ["name"])).isSome →
      (tables "\"users\"" key).bind (keyValues ["name"]) ≠
        (tables "\"users\"" key').bind (keyValues ["name"])) :
    Accepts uniqueNames tables := by
  intro table columns mem key key' values other has has'
  unfold uniqueNames at mem
  split at mem
  · next users =>
    subst users
    obtain rfl := List.mem_singleton.mp mem
    have inKeys : ∀ {key}, (tables "\"users\"" key).bind (keyValues ["name"]) = some values → key ∈ keys := by
      intro key has
      by_contra outside
      simp [only key outside] at has
    exact differ key (inKeys has) key' (inKeys has') other (by simp [has]) (has.trans has'.symm)
  · cases mem

/-- The batch puts the second ann before it deletes the first. -/
theorem freed_name_is_refused :
    Accepts uniqueNames annOnly ∧
    (∃ final, EachPasses usersServer uniqueNames usersRepository .fullSync
      [deletedUser, userEvent "us" "2" 4 "ann"] annOnly final) ∧
    ¬∃ next, BatchPasses usersServer uniqueNames usersRepository .fullSync
      [deletedUser, userEvent "us" "2" 4 "ann"] annOnly next := by
  have start : OnlyKeys [["1"], ["2"]] annOnly := by
    intro key outside
    have other : key ≠ ["1"] := fun same => outside (same ▸ List.mem_cons_self)
    exact if_neg other
  refine ⟨accepts_names start (by decide), ?_, ?_⟩
  · have only := @onlyKeys_userStep _ _ deletedUser start (by decide)
    have only' := @onlyKeys_userStep _ _ (userEvent "us" "2" 4 "ann") only (by decide)
    exact ⟨_, _, ⟨_, rfl, _, rfl, accepts_names only (by decide), rfl⟩,
      _, ⟨_, rfl, _, rfl, accepts_names only' (by decide), rfl⟩, rfl⟩
  · rintro ⟨next, calls, made, passes⟩
    cases made
    obtain ⟨middle, ran, accepted, -⟩ := passes
    cases ran
    exact accepted "\"users\"" ["name"] (by decide) ["1"] ["2"] ["ann"] (by decide) rfl rfl

def annAndCat : Tables String := fun _ key =>
  if key = ["1"] ∨ key = ["2"] then
    some fun column => if column = "id" then key.head? else if column = "name" then
      some (if key = ["1"] then "ann" else "cat") else some "us"
  else none

/-- The second user takes the name that the first gives up, in one statement; the deletion of a third
finds no row. -/
def userBatch : List ReplicationEvent :=
  [renamedUser, { deletedUser with primaryKey := userKey "3" },
    { userEvent "us" "2" 3 "ann" with operation := .update }]

theorem userBatch_agrees :
    ∃ final, EachPasses usersServer uniqueNames usersRepository .fullSync userBatch annAndCat final ∧
      BatchPasses usersServer uniqueNames usersRepository .fullSync userBatch annAndCat final := by
  have start : OnlyKeys [["1"], ["2"], ["3"]] annAndCat := by
    intro key outside
    refine if_neg fun same => outside ?_
    rcases same with rfl | rfl <;> simp
  have first := @onlyKeys_userStep _ _ renamedUser start (by decide)
  have second := @onlyKeys_userStep _ _ { deletedUser with primaryKey := userKey "3" } first (by decide)
  have third := @onlyKeys_userStep _ _ { userEvent "us" "2" 3 "ann" with operation := .update } second
    (by decide)
  have each : EachPasses usersServer uniqueNames usersRepository .fullSync userBatch annAndCat _ :=
    ⟨_, ⟨_, rfl, _, rfl, accepts_names first (by decide), rfl⟩,
      _, ⟨_, rfl, _, rfl, accepts_names second (by decide), rfl⟩,
      _, ⟨_, rfl, _, rfl, accepts_names third (by decide), rfl⟩, rfl⟩
  have apart : Apart (userBatch.flatMap (eventWrites usersRepository usersServer .fullSync)) := by
    show List.Pairwise _ _
    decide
  have oneSet : OneFieldSet userBatch := by
    unfold OneFieldSet
    decide
  have alike : ∀ part ∈ parts .fullSync userBatch, ∀ first ∈ part.head?, ∀ event ∈ part,
      event.fields.keys = first.fields.keys := by
    decide
  refine ⟨_, each, (batch_agrees (by decide) apart oneSet (accepts_names start (by decide)) each).mpr
    ⟨fun part mem first head event inPart => .of_keys (alike part mem first head event inPart), ?_⟩⟩
  show List.Pairwise _ _
  decide

end Users

end Transmogr.Batching

import Transmogr.Commit
import Transmogr.Statements

/-! Rows are owned by the region in their region field. Whatever a peer sends, the rows
of other owners stay as they are. -/
namespace Transmogr

open Sql

variable {V : Type} [DecidableEq V] (repo : Repository) (server : Server V) (region : String)

/-- A row of a table has an owner, and it is not the region. A table two configured
names lead to has to say so under both of them. -/
def Foreign (tableRef : String) (row : Row V) : Prop :=
  ∀ table spec, tableSpec repo table = .ok (spec, tableRef) →
    spec.regionField ≠ "" ∧
      ∃ owner, row spec.regionField = some owner ∧ owner ≠ server.ofText region

/-- PostgreSQL reads the region from JSON as the value it has as a parameter. -/
def ReadsRegion : Prop :=
  ∀ table spec tableRef, tableSpec repo table = .ok (spec, tableRef) → ∀ value,
    server.populate tableRef spec.regionField (Json.quote region) = some value →
      value = some (server.ofText region)

/-- Every foreign row is there, unchanged. -/
def KeepsForeign (before after : Tables V) : Prop :=
  ∀ tableRef key row, before tableRef key = some row → Foreign repo server region tableRef row →
    after tableRef key = some row

/-- What a peer sends: a batch of events, or a chunk of a snapshot. -/
inductive Inbound
  | batch (batch : Batch)
  | chunk (table : String) (rows : List SnapshotRow)

/-- Events name their region themselves; a chunk is attributed by the caller. -/
def Inbound.AttributedTo : Inbound → Prop
  | .batch sent => ∀ event ∈ sent.events, event.peerRegion = region
  | .chunk .. => True

def applyInbound (mode : ReplicationApplyMode) (store : Store V) : Inbound → Except String (Store V)
  | .batch batch => applyBatch repo server mode batch.kind batch.events store
  | .chunk table rows => do
    let tables ← applySnapshotChunk repo server region table rows store.tables
    return { store with tables }

/-- A message that fails is rolled back. -/
def receiveInbound (mode : ReplicationApplyMode) (store : Store V) (message : Inbound) : Store V :=
  match applyInbound repo server region mode store message with
  | .ok next => next
  | .error _ => store

def receiveAll (mode : ReplicationApplyMode) (store : Store V) (messages : List Inbound) : Store V :=
  messages.foldl (receiveInbound repo server region mode) store

variable {repo server region}

omit [DecidableEq V] in
theorem KeepsForeign.refl (tables : Tables V) : KeepsForeign repo server region tables tables :=
  fun _ _ _ present _ => present

omit [DecidableEq V] in
theorem KeepsForeign.trans {first second third : Tables V}
    (before : KeepsForeign repo server region first second)
    (after : KeepsForeign repo server region second third) :
    KeepsForeign repo server region first third :=
  fun tableRef key row present foreign =>
    after tableRef key row (before tableRef key row present foreign) foreign

omit [DecidableEq V] in
theorem populateRecord_column {table column : String} {data : Object} {source : Row V} {raw : Bytes}
    (read : populateRecord server table (some data) = .ok source) (has : data[column]? = some raw)
    (known : column ∈ server.columns table) :
    ∃ value, server.populate table column raw = some value ∧ source column = value := by
  simp only [populateRecord] at read
  split at read
  · next reads =>
    cases read
    have converts := List.all_eq_true.mp reads column known
    rw [has] at converts
    obtain ⟨value, converted⟩ := Option.isSome_iff_exists.mp converts
    exact ⟨value, converted, by simp [populateRow, known, has, converted]⟩
  · cases read

omit [DecidableEq V] in
/-- Rows of a stamped payload are owned by the region. -/
theorem insertedRow_region {table tableRef : String} {spec : TableSpec} {columns : List String}
    {payloads : List (Option Object)} {payload : Option Object} {source : Row V}
    (reads : ReadsRegion repo server region) (found : tableSpec repo table = .ok (spec, tableRef))
    (named : spec.regionField ∈ columns) (stamped : Stamped spec region payloads)
    (known : ∀ column ∈ columns, column ∈ server.columns tableRef) (sent : payload ∈ payloads)
    (read : populateRecord server tableRef payload = .ok source) :
    insertedRow server tableRef columns source spec.regionField = some (server.ofText region) := by
  obtain ⟨data, rfl, has⟩ := stamped payload sent
  obtain ⟨value, converted, same⟩ := populateRecord_column read has (known _ named)
  rw [insertedRow, if_pos named, same]
  exact reads table spec tableRef found value converted

theorem ownerRegionCondition_of_ne {spec : TableSpec} (owned : spec.regionField ≠ "") :
    ownerRegionCondition spec = some spec.regionField := if_neg owned

/-- Each of the three gates turns a foreign row away. -/
theorem not_foreign_of_effect {call : Call} {before : TableRows V} {key : List V}
    {after : Option (Row V)} {row : Row V} (reads : ReadsRegion repo server region)
    (issued : Issued repo region call) (written : Effect server before key call after)
    (present : before key = some row) : ¬Foreign repo server region call.1.table row := by
  intro foreign
  cases issued with
  | @upsert table spec tableRef columns action payloads found stamped gated =>
    obtain ⟨owned, owner, has, differs⟩ := foreign table spec found
    obtain ⟨named, stamps⟩ := stamped owned
    cases written with
    | insert _ _ _ _ absent => simp [absent] at present
    | overwrite known sent read _ target allowed =>
      cases present.symm.trans target
      have stampedRegion := insertedRow_region reads found named stamps known sent read
      rw [gated _ _ rfl, ownerRegionCondition_of_ne owned] at allowed
      simp only [ownerAllows, has, stampedRegion, beq_iff_eq, Option.some.injEq] at allowed
      exact differs allowed.symm
  | @update table spec tableRef assignments payloads found =>
    obtain ⟨owned, owner, has, differs⟩ := foreign table spec found
    cases written with
    | update _ _ _ target allowed =>
      cases present.symm.trans target
      rw [ownerRegionCondition_of_ne owned, if_pos owned] at allowed
      simp only [regionIs, List.head?_cons, has, beq_iff_eq, Option.some.injEq] at allowed
      exact differs allowed
  | @delete table spec tableRef payloads found =>
    obtain ⟨owned, owner, has, differs⟩ := foreign table spec found
    cases written with
    | delete _ _ _ target allowed =>
      cases present.symm.trans target
      rw [ownerRegionCondition_of_ne owned, if_pos owned] at allowed
      simp only [regionIsOrNull, regionIs, List.head?_cons, has, Option.isNone_some, Bool.false_or,
        beq_iff_eq, Option.some.injEq] at allowed
      exact differs allowed
  | nothing => cases written

theorem exec_keepsForeign {call : Call} {tables next : Tables V}
    (reads : ReadsRegion repo server region) (issued : Issued repo region call)
    (ran : exec server call.1 call.2 tables = .ok next) :
    KeepsForeign repo server region tables next := by
  obtain ⟨touched, -, accounts⟩ := exec_accounts ran
  intro tableRef key row present foreign
  by_cases here : tableRef = call.1.table
  · subst here
    by_cases hit : key ∈ touched
    · exact absurd foreign (not_foreign_of_effect reads issued (accounts.effect key hit) present)
    · rw [accounts.untouched key hit, present]
  · rw [accounts.elsewhere tableRef here, present]

theorem execAll_keepsForeign {calls : List Call} {tables next : Tables V}
    (reads : ReadsRegion repo server region) (issued : ∀ call ∈ calls, Issued repo region call)
    (ran : execAll server calls tables = .ok next) : KeepsForeign repo server region tables next :=
  Fallible.foldlM_rel KeepsForeign.refl KeepsForeign.trans
    (fun call mem _ _ stepped => exec_keepsForeign reads (issued call mem) stepped) ran

variable {mode : ReplicationApplyMode}

theorem applyEventsBatch_keepsForeign {events : List ReplicationEvent} {tables next : Tables V}
    (reads : ReadsRegion repo server region) (known : region ≠ "")
    (attributed : ∀ event ∈ events, event.peerRegion = region)
    (ran : applyEventsBatch repo server mode events tables = .ok next) :
    KeepsForeign repo server region tables next := by
  obtain ⟨calls, made, executed⟩ := executes_events mode events tables next ran
  exact execAll_keepsForeign reads (issued_events known attributed made) executed

theorem applySnapshotChunk_keepsForeign {table : String} {rows : List SnapshotRow}
    {tables next : Tables V} (reads : ReadsRegion repo server region) (known : region ≠ "")
    (ran : applySnapshotChunk repo server region table rows tables = .ok next) :
    KeepsForeign repo server region tables next := by
  obtain ⟨calls, made, executed⟩ := executes_snapshot region table rows tables next ran
  exact execAll_keepsForeign reads (issued_snapshot known made) executed

theorem defaultOperation_peerRegion (event : ReplicationEvent) :
    (defaultOperation event).peerRegion = event.peerRegion := by
  rw [defaultOperation]
  split <;> rfl

/-- The events a batch commits come from the region the batch comes from. -/
theorem toApply_attributed {events prepared : List ReplicationEvent} {kind : BatchKind}
    {cursors : Cursors} (attributed : ∀ event ∈ events, event.peerRegion = region)
    (prepare : prepareEvents mode events = .ok prepared) :
    ∀ event ∈ filterStale cursors (commitOrder kind prepared), event.peerRegion = region := by
  intro event mem
  have allowed := mem_commitOrder.mp ((filterStale_sublist _ _).subset mem)
  obtain ⟨original, sent, rfl⟩ := prepareEvents_mem prepare allowed
  rw [defaultOperation_peerRegion]
  exact attributed original sent

theorem applyBatch_keepsForeign {batch : Batch} {store next : Store V}
    (reads : ReadsRegion repo server region) (known : region ≠ "")
    (attributed : ∀ event ∈ batch.events, event.peerRegion = region)
    (ran : applyBatch repo server mode batch.kind batch.events store = .ok next) :
    KeepsForeign repo server region store.tables next.tables := by
  obtain ⟨prepared, prepare, committed⟩ := applyBatch_eq_ok.mp ran
  split at committed
  · rw [committed]
    exact .refl _
  · obtain ⟨tables, applied, rfl⟩ := commit_eq_ok.mp committed
    exact applyEventsBatch_keepsForeign reads known (toApply_attributed attributed prepare) applied

theorem applyInbound_keepsForeign {message : Inbound} {store next : Store V}
    (reads : ReadsRegion repo server region) (known : region ≠ "")
    (attributed : message.AttributedTo region)
    (ran : applyInbound repo server region mode store message = .ok next) :
    KeepsForeign repo server region store.tables next.tables := by
  cases message with
  | batch batch => exact applyBatch_keepsForeign reads known attributed ran
  | chunk table rows =>
    obtain ⟨tables, applied, ran⟩ := Fallible.bind_eq_ok.mp ran
    cases ran
    exact applySnapshotChunk_keepsForeign reads known applied

theorem receiveInbound_keepsForeign {message : Inbound} (store : Store V)
    (reads : ReadsRegion repo server region) (known : region ≠ "")
    (attributed : message.AttributedTo region) :
    KeepsForeign repo server region store.tables
      (receiveInbound repo server region mode store message).tables := by
  unfold receiveInbound
  split
  · next ran => exact applyInbound_keepsForeign reads known attributed ran
  · exact .refl _

/-- Owner gating: no sequence of batches and chunks from a region changes or removes a
row of a configured table that another region owns. -/
theorem foreign_rows_survive {messages : List Inbound} (store : Store V)
    (reads : ReadsRegion repo server region) (known : region ≠ "")
    (attributed : ∀ message ∈ messages, message.AttributedTo region) :
    KeepsForeign repo server region store.tables
      (receiveAll repo server region mode store messages).tables := by
  induction messages generalizing store with
  | nil => exact .refl _
  | cons message messages ih =>
    obtain ⟨head, tail⟩ := List.forall_mem_cons.mp attributed
    exact (receiveInbound_keepsForeign store reads known head).trans (ih _ tail)

def ownedRow (id name : String) (region : Option String) : Row String := fun column =>
  if column = "id" then some id else if column = "name" then some name
  else if column = "region" then region else none

/-- A user of `eu`, one of `us` and one without an owner. -/
def ownedUsers : Store String where
  tables tableRef key :=
    if tableRef = "\"users\"" then
      if key = ["1"] then some (ownedRow "1" "ann" (some "eu"))
      else if key = ["2"] then some (ownedRow "2" "bob" (some "us"))
      else if key = ["3"] then some (ownedRow "3" "cid" none)
      else none
    else none
  cursors _ _ := none

/-- `us` upserts, updates and deletes the users, and then sends them in a snapshot. -/
def usMessages (ids : List String) : List Inbound :=
  let event (operation : ReplicationOperation) (version : Int) (id : String) : ReplicationEvent :=
    { userEvent "us" id version "eve" with operation }
  [.batch ⟨.eventBatch, ids.map (event .upsert 1)⟩,
   .batch ⟨.transactionBatch, ids.map (event .update 2)⟩,
   .batch ⟨.transactionBatch, ids.map (event .delete 3)⟩,
   .chunk "users" (ids.map fun id => ⟨userKey id, some (userEvent "us" id 4 "eve").fields, 0⟩)]

theorem textServer_readsRegion (repo : Repository) (columns : String → List String) (region : String) :
    ReadsRegion repo (textServer columns) region := by
  intro table spec tableRef _ value read
  have notNull : Json.quote region ≠ Json.nullText := nofun
  simp only [textServer, if_neg notNull, Json.unmarshalString_quote] at read
  cases read
  rfl

theorem usersServer_readsRegion (region : String) : ReadsRegion usersRepository usersServer region :=
  textServer_readsRegion _ _ region

theorem usersRepository_spec {table tableRef : String} {spec : TableSpec}
    (found : tableSpec usersRepository table = .ok (spec, tableRef)) : spec = usersSpec := by
  simp only [tableSpec, usersRepository] at found
  split at found
  · cases found
  · next known =>
    by_cases users : table = "users"
    · subst users
      cases known
      cases found
      rfl
    · rw [Std.ExtTreeMap.getElem?_ofList_of_contains_eq_false (by simp [users])] at known
      cases known

theorem foreign_rows_survive_users :
    (receiveAll usersRepository usersServer "us" .fullSync ownedUsers
        (usMessages ["1", "2", "3"])).tables "\"users\"" ["1"] = some (ownedRow "1" "ann" (some "eu")) ∧
      ((receiveAll usersRepository usersServer "us" .fullSync ownedUsers
        (usMessages ["1", "2", "3"])).tables "\"users\"" ["2"]).map (· "name") =
          some (some "eve") := by
  refine ⟨foreign_rows_survive ownedUsers (usersServer_readsRegion "us") (by decide) ?_ _ _ _ rfl ?_,
    by decide⟩
  · simp [usMessages, Inbound.AttributedTo, userEvent]
  · intro table spec found
    obtain rfl := usersRepository_spec found
    exact ⟨by decide, "eu", rfl, by decide⟩

end Transmogr

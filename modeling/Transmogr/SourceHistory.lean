import Transmogr.Convergence
import Transmogr.Following

/-! The history of a source table: its transactions are captured, staged by `HandleBatch` in chunks, go
through the outbox and the wire and are applied. The receiver mirrors the source as it was after the
changes delivered. -/
namespace Transmogr

open Sql Overwrite

namespace RowChange

variable {V : Type}

/-- The adapter can make a key of the row, the key stays, and an update changes a column outside it. -/
def Ships {site : Site V} (table : CapturedTable site) : RowChange V → Prop
  | .insert _ row | .delete _ row => table.KeyText row
  | .update oldKey old key row => table.KeyText row ∧ key = oldKey ∧
      ∃ column ∈ table.columns, column ∉ site.spec.primaryKey ∧ old column ≠ row column

variable [DecidableEq V]

def afterAll (rows : TableRows V) (changes : List (RowChange V)) : TableRows V :=
  changes.foldl RowChange.after rows

/-- Each change can be made to the rows the ones before it left. -/
def AllValid (site : Site V) : TableRows V → List (RowChange V) → Prop
  | _, [] => True
  | rows, change :: changes => change.Valid site rows ∧ AllValid site (change.after rows) changes

end RowChange

/-- A committed transaction of the source: its changes with the positions they were read at. -/
structure SourceTransaction (V : Type) where
  txID : String
  logged : List (Nat × RowChange V)

/-- The two ends of a captured table: the adapter has its relation, `HandleBatch` sends what it is given,
and PostgreSQL prints integers as `strconv` does. -/
structure CapturedTable.Wired {V : Type} {site : Site V} (table : CapturedTable site)
    (cfg : CaptureConfig) (feed : ChangefeedConfig) (digest : Bytes → String) (relations : Relations)
    (relationID : Nat) : Prop where
  captures : cfg.localRegion = site.region
  known : relations[relationID]? = some table.relation
  feeds : feed.localRegion = site.region
  broadcasts : feed.broadcastMode = .fullSync
  positive : 0 < feed.maxBatchEvents
  identifies : ∀ input, digest input ≠ ""
  named : site.table ≠ ""
  integers : ∀ column, table.types[column]? = some .integer → ∀ value, ∃ n, Json.minInt64 ≤ n ∧
    n ≤ Json.maxInt64 ∧ Json.utf8 (table.output column value) = Json.formatInt n

section Captured

variable {V : Type} {site : Site V} (table : CapturedTable site) (cfg : CaptureConfig)
  (feed : ChangefeedConfig) (digest : Bytes → String) (relations : Relations) (relationID : Nat)

/-- The batch the adapter hands over for the transaction. -/
def SourceTransaction.batch (tx : SourceTransaction V) : Except String ChangefeedBatch := do
  let changes ← tx.logged.mapM fun entry => entry.2.build table cfg relations relationID entry.1
  return ⟨tx.txID, changes.filterMap id⟩

def batchKind (txID : String) : BatchKind := if txID ≠ "" then .transactionBatch else .eventBatch

/-- What the receiver decodes of a batch, in the chunks `HandleBatch` stages it in. -/
def deliveries (batch : ChangefeedBatch) : List Batch :=
  (enqueueChunks feed (handleBatchEvents digest feed batch.changes)).map fun chunk =>
    ⟨batchKind batch.txID, chunk.map (·.received)⟩

/-- What the receiver is handed of the transactions. -/
def capturedDeliveries (txs : List (SourceTransaction V)) : Except String (List Batch) := do
  let batches ← txs.mapM (SourceTransaction.batch table cfg relations relationID)
  return batches.flatMap (deliveries feed digest)

end Captured

section Conveys

variable {V : Type} [DecidableEq V] {site : Site V} {table : CapturedTable site} {cfg : CaptureConfig}
  {feed : ChangefeedConfig} {digest : Bytes → String} {relations : Relations} {relationID lsn : Nat}
  {rows : TableRows V} {change : RowChange V}

/-- The write stands for the change at a position: the source's rows move as it says. -/
structure Site.Write.Conveys (write : site.Write) (lsn : Nat) (rows : TableRows V)
    (change : RowChange V) : Prop where
  key : write.key = change.key
  version : write.event.version = lsn
  named : ∀ named row, write.change = .patch named row →
    ∃ column ∈ named, column ∉ site.spec.primaryKey
  effect : ∀ key, site.view (change.after rows key) =
    replay (atKey key [write.entry]) (site.view (rows key))

theorem view_of_one_change {before after : TableRows V} {key : List V} {done : Change String (Option V)}
    (there : site.view (after key) = done.apply (site.view (before key)))
    (elsewhere : ∀ other, other ≠ key → after other = before other) (other : List V) :
    site.view (after other) = replay (atKey other [(key, done)]) (site.view (before other)) := by
  by_cases here : other = key
  · rw [here, there]
    simp [atKey, replay]
  · rw [elsewhere other here, atKey_of_absent fun entry mem => ?_]
    · rfl
    · rw [List.mem_singleton.mp mem]
      exact fun same => here same.symm

omit [DecidableEq V] in
theorem RowChange.Ships.spec (ships : change.Ships table) :
    table.KeyText change.row ∧ change.KeepsKey := by
  cases change with
  | insert | delete => exact ⟨ships, trivial⟩
  | update => exact ⟨ships.1, ships.2.1⟩

/-- Only an update is a patch, and one that ships names a column outside the key. -/
theorem RowChange.Ships.named (ships : change.Ships table) (valid : change.Valid site rows)
    {done : Change String (Option V)}
    (there : site.view (change.after rows change.key) = done.apply (site.view (rows change.key)))
    (named : List String) (target : Row V) (patch : done = .patch named target) :
    ∃ column ∈ named, column ∉ site.spec.primaryKey := by
  subst patch
  cases change with
  | insert key row =>
    rw [RowChange.after, RowChange.key, setRow, if_pos rfl, Site.view_of_owned valid.2.2, valid.1] at there
    cases there
  | update oldKey old key row =>
    obtain ⟨has, _, oldOwned, keyed, owned, _⟩ := valid
    obtain ⟨-, rfl, column, inColumns, outside, differs⟩ := ships
    rw [RowChange.after, RowChange.key, setRow, if_pos rfl, has, Site.view_of_owned owned,
      Site.view_of_owned oldOwned] at there
    have same := congrFun (Option.some.inj there) column
    refine ⟨column, ?_, outside⟩
    by_contra absent
    have kept : overlay (site.clip old) target named column = site.clip old column := if_neg absent
    have inTable := (table.same column).mp inColumns
    rw [Site.clip, if_pos inTable] at same
    exact differs ((same.trans kept).trans (if_pos inTable)).symm
  | delete key row =>
    rw [RowChange.after, RowChange.key, setRow, if_pos rfl, valid.1, Site.view_of_owned valid.2.2] at there
    cases there

omit [DecidableEq V] in
/-- The key the adapter extracts reaches the receiver with its bytes. -/
theorem CapturedTable.Wired.travels (wired : table.Wired cfg feed digest relations relationID)
    {row : Row V} {key : List V} (text : table.KeyText row) (keyed : site.key row = some key)
    {parts : PrimaryKey}
    (extracted : table.relation.extractPrimaryKey (some (table.tuple row)) = .ok parts) :
    primaryKeyPayload (throughWire parts) = primaryKeyPayload parts := by
  rw [primaryKeyPayload, primaryKeyPayload, throughWire, List.isEmpty_map, List.foldl_map]
  congr 2
  apply List.foldl_ext
  intro object part mem
  obtain ⟨column, inKey, made⟩ := Fallible.mem_of_mapM extracted mem
  obtain ⟨raw, value, made', accepted, _⟩ := CapturedTable.primaryKeyPart_tuple text keyed inKey
  cases made.symm.trans made'
  rcases typ : table.types[column]? with _ | ⟨_ | _ | _ | _⟩
  all_goals rw [typ] at accepted
  case some.boolean => exact absurd typ (text.typed column inKey)
  case some.integer =>
    obtain ⟨n, low, high, printed⟩ := wired.integers column typ value
    have kept : (Int64.ofInt n).toInt = n :=
      Int64.toInt_ofInt_of_le low (by rw [Json.maxInt64] at high; omega)
    simp only [Option.getD_some, primaryKeyValueFromString] at accepted
    split at accepted
    · cases accepted
      simp [assignProtoPrimaryKeyValue, printed, Json.unmarshalInt64_formatInt low high, kept]
    · cases accepted
  all_goals
    cases accepted
    simp [assignProtoPrimaryKeyValue, Json.unmarshalString_quote]

/-- The change is built, and what the receiver decodes is the event of a write that stands for it. -/
theorem exists_write (wired : table.Wired cfg feed digest relations relationID)
    (fits : (lsn : Int) ≤ Json.maxInt64) (valid : change.Valid site rows) (ships : change.Ships table) :
    ∃ built, ∃ write : site.Write, change.build table cfg relations relationID lsn = .ok (some built) ∧
      write.event = (eventOfChange digest feed built).received ∧ write.Conveys lsn rows change := by
  obtain ⟨text, stays⟩ := ships.spec
  obtain ⟨parts, object, extracted, payloadOf, prints⟩ :=
    CapturedTable.extractPrimaryKey_tuple text valid.keyed
  obtain ⟨payload, done, made, tells, there, elsewhere⟩ :=
    exists_told ⟨wired.captures, wired.known, fits, wired.feeds, wired.broadcasts⟩ valid stays extracted
  rw [← wired.travels text valid.keyed extracted] at payloadOf
  have filled : throughWire parts ≠ [] := by
    intro empty
    rw [empty] at payloadOf
    cases payloadOf
  let write : site.Write :=
    { event := (eventOfChange digest feed ⟨site.table, parts, change.operation, lsn, payload⟩).received
      key := change.key
      change := done
      table := rfl
      peerRegion := wired.feeds
      valid := by
        simp [validateEvent, ReplicationEvent.received, eventOfChange, wired.feeds, site.region_ne,
          wired.named, wired.identifies, filled]
      parts := ⟨object, _, payloadOf, prints, valid.keyed⟩
      tells := tells _ (by cases change <;> rfl) rfl }
  exact ⟨_, write, made, rfl, rfl, rfl, ships.named valid there, view_of_one_change there elsewhere⟩

end Conveys

section Told

variable {V : Type} [DecidableEq V] {site : Site V}

/-- The writes stand for the changes, one for one. -/
inductive Told : TableRows V → List (Nat × RowChange V) → List site.Write → Prop
  | nil {rows : TableRows V} : Told rows [] []
  | cons {rows : TableRows V} {lsn : Nat} {change : RowChange V} {write : site.Write}
      {logged : List (Nat × RowChange V)} {writes : List site.Write}
      (conveys : write.Conveys lsn rows change) (others : Told (change.after rows) logged writes) :
      Told rows ((lsn, change) :: logged) (write :: writes)

variable {rows : TableRows V} {logged : List (Nat × RowChange V)} {writes : List site.Write}

theorem Told.append {later : List (Nat × RowChange V)} {laterWrites : List site.Write}
    (told : Told rows logged writes)
    (onward : Told (RowChange.afterAll rows (logged.map (·.2))) later laterWrites) :
    Told rows (logged ++ later) (writes ++ laterWrites) := by
  induction told with
  | nil => exact onward
  | cons conveys _ ih => exact .cons conveys (ih onward)

/-- Each write is under the key of its change, with its position as version. -/
theorem Told.labels (told : Told rows logged writes) :
    writes.map (fun write => (write.event.version, write.key)) =
      logged.map fun entry => ((entry.1 : Int), entry.2.key) := by
  induction told with
  | nil => rfl
  | cons conveys _ ih => rw [List.map_cons, List.map_cons, conveys.key, conveys.version, ih]

theorem Told.entry (told : Told rows logged writes) {write : site.Write} (mem : write ∈ writes) :
    ∃ entry ∈ logged, entry.2.key = write.key ∧ write.event.version = (entry.1 : Int) := by
  have label := List.mem_map_of_mem (f := fun write : site.Write => (write.event.version, write.key)) mem
  rw [told.labels] at label
  obtain ⟨entry, inLog, same⟩ := List.mem_map.mp label
  exact ⟨entry, inLog, congrArg Prod.snd same, (congrArg Prod.fst same).symm⟩

theorem Told.named (told : Told rows logged writes) : ∀ write ∈ writes, ∀ named row,
    write.change = .patch named row → ∃ column ∈ named, column ∉ site.spec.primaryKey := by
  induction told with
  | nil => exact nofun
  | cons conveys _ ih => exact List.forall_mem_cons.mpr ⟨conveys.named, ih⟩

/-- The source's rows after the first changes are those that the first writes leave. -/
theorem Told.effect (told : Told rows logged writes) (n : Nat) (key : List V) :
    site.view (RowChange.afterAll rows ((logged.map (·.2)).take n) key) =
      replay (atKey key ((writes.take n).map Site.Write.entry)) (site.view (rows key)) := by
  induction told generalizing n with
  | nil => simp [RowChange.afterAll, atKey, replay]
  | @cons rows lsn change write logged writes conveys _ ih =>
    cases n with
    | zero => rfl
    | succ n =>
      rw [List.map_cons, List.take_succ_cons, List.take_succ_cons, List.map_cons]
      have first : atKey key (write.entry :: (writes.take n).map Site.Write.entry) =
          atKey key [write.entry] ++ atKey key ((writes.take n).map Site.Write.entry) :=
        atKey_append [write.entry] _
      rw [first, replay_append, ← conveys.effect key]
      exact ih n

theorem before_of_version_lt {p q : Position} (lt : p.version < q.version) : p.Before q :=
  Position.before_iff.mpr (.inl lt)

/-- Later positions have greater versions, so that the writes can be replayed in their order. -/
theorem Told.replayable {part : List site.Write} (told : Told rows logged writes)
    (increasing : logged.Pairwise (·.1 < ·.1)) (plain : ∀ column ∈ site.columns, ',' ∉ column.toList)
    (sub : part.Sublist writes) : Site.Replayable part := by
  have labels : (writes.map fun write => (write.event.version, write.key)).Pairwise (·.1 < ·.1) := by
    rw [told.labels, List.pairwise_map]
    exact increasing.imp fun lt => Int.ofNat_lt.mpr lt
  have versions := (List.pairwise_map.mp labels).sublist sub
  exact ⟨plain, fun write mem => told.named write (sub.subset mem), versions.imp before_of_version_lt,
    versions.imp before_of_version_lt⟩

theorem RowChange.AllValid.split {first second : List (RowChange V)}
    (valid : RowChange.AllValid site rows (first ++ second)) : RowChange.AllValid site rows first ∧
      RowChange.AllValid site (RowChange.afterAll rows first) second := by
  induction first generalizing rows with
  | nil => exact ⟨trivial, valid⟩
  | cons change first ih =>
    obtain ⟨here, rest⟩ := valid
    exact ⟨⟨here, (ih rest).1⟩, (ih rest).2⟩

end Told

/-! ## Transactions -/

section Transactions

variable {V : Type} [DecidableEq V] {site : Site V} {table : CapturedTable site} {cfg : CaptureConfig}
  {feed : ChangefeedConfig} {digest : Bytes → String} {relations : Relations} {relationID : Nat}
  {rows : TableRows V}

/-- The changes of a transaction are built, and what the receiver decodes are the events of writes that
stand for them. -/
theorem exists_writes (wired : table.Wired cfg feed digest relations relationID)
    {logged : List (Nat × RowChange V)} (valid : RowChange.AllValid site rows (logged.map (·.2)))
    (ships : ∀ entry ∈ logged, entry.2.Ships table)
    (fits : ∀ entry ∈ logged, (entry.1 : Int) ≤ Json.maxInt64) :
    ∃ (writes : List site.Write) (built : List ChangefeedChange), Told rows logged writes ∧
      logged.mapM (fun entry => entry.2.build table cfg relations relationID entry.1) =
        .ok (built.map some) ∧
      built.map (fun change => (eventOfChange digest feed change).received) = writes.map (·.event) := by
  induction logged generalizing rows with
  | nil => exact ⟨[], [], .nil, rfl, rfl⟩
  | cons entry logged ih =>
    obtain ⟨validHere, validRest⟩ := valid
    obtain ⟨shipsHere, shipsRest⟩ := List.forall_mem_cons.mp ships
    obtain ⟨fitsHere, fitsRest⟩ := List.forall_mem_cons.mp fits
    obtain ⟨change, write, made, event, conveys⟩ := exists_write wired fitsHere validHere shipsHere
    obtain ⟨writes, built, told, mades, events⟩ := ih validRest shipsRest fitsRest
    refine ⟨write :: writes, change :: built, .cons conveys told, ?_, ?_⟩
    · rw [List.mapM_cons]
      exact Fallible.bind_eq_ok.mpr ⟨_, made, Fallible.bind_eq_ok.mpr ⟨_, mades, rfl⟩⟩
    · rw [List.map_cons, List.map_cons, event, events]

/-- The writes of each transaction in the chunks they are delivered in. -/
def chunked (feed : ChangefeedConfig) (parts : List (BatchKind × List site.Write)) :
    List (BatchKind × List site.Write) :=
  parts.flatMap fun part => (Chunks.chunks feed.maxBatchEvents part.2).map (part.1, ·)

def deliveryOf (chunk : BatchKind × List site.Write) : Batch := ⟨chunk.1, chunk.2.map (·.event)⟩

omit [DecidableEq V] in
theorem flatMap_chunked (positive : 0 < feed.maxBatchEvents)
    (parts : List (BatchKind × List site.Write)) :
    (chunked feed parts).flatMap (·.2) = parts.flatMap (·.2) := by
  rw [chunked, List.flatMap_assoc]
  congr 1
  funext part
  rw [List.flatMap_map, List.flatMap_id', Chunks.flatten_chunks positive]

omit [DecidableEq V] in
/-- The events of a batch are delivered in the chunks of their writes. -/
theorem deliveries_of_writes (wired : table.Wired cfg feed digest relations relationID) (txID : String)
    {built : List ChangefeedChange} {writes : List site.Write}
    (events : built.map (fun change => (eventOfChange digest feed change).received) =
      writes.map (·.event)) :
    deliveries feed digest ⟨txID, built⟩ = (chunked feed [(batchKind txID, writes)]).map deliveryOf := by
  have all : (handleBatchEvents digest feed built).map (·.received) = writes.map (·.event) := by
    unfold handleBatchEvents
    rw [List.filter_eq_self.mpr fun change _ => by simp [wired.broadcasts, broadcastAllowed],
      List.map_map]
    exact events
  have pieces := congrArg (Chunks.chunks feed.maxBatchEvents) all
  rw [Chunks.chunks_map, Chunks.chunks_map] at pieces
  have kinds := congrArg (List.map (Batch.mk (batchKind txID))) pieces
  rw [List.map_map, List.map_map] at kinds
  rw [chunked, List.flatMap_singleton, List.map_map]
  exact kinds

/-- Transactions are captured, and delivered in the chunks of writes that stand for their changes. -/
theorem exists_parts (wired : table.Wired cfg feed digest relations relationID)
    {txs : List (SourceTransaction V)}
    (valid : RowChange.AllValid site rows ((txs.flatMap (·.logged)).map (·.2)))
    (ships : ∀ entry ∈ txs.flatMap (·.logged), entry.2.Ships table)
    (fits : ∀ entry ∈ txs.flatMap (·.logged), (entry.1 : Int) ≤ Json.maxInt64)
    (apart : ∀ tx ∈ txs, (tx.logged.map (·.2.key)).Nodup) :
    ∃ parts : List (BatchKind × List site.Write),
      Told rows (txs.flatMap (·.logged)) (parts.flatMap (·.2)) ∧
      capturedDeliveries table cfg feed digest relations relationID txs =
        .ok ((chunked feed parts).map deliveryOf) ∧
      ∀ part ∈ parts, part.2.Pairwise (·.key ≠ ·.key) := by
  induction txs generalizing rows with
  | nil => exact ⟨[], .nil, rfl, nofun⟩
  | cons tx txs ih =>
    rw [List.flatMap_cons, List.map_append] at valid
    rw [List.flatMap_cons] at ships fits ⊢
    obtain ⟨validHere, validRest⟩ := valid.split
    obtain ⟨shipsHere, shipsRest⟩ := List.forall_mem_append.mp ships
    obtain ⟨fitsHere, fitsRest⟩ := List.forall_mem_append.mp fits
    obtain ⟨apartHere, apartRest⟩ := List.forall_mem_cons.mp apart
    obtain ⟨writes, built, told, made, events⟩ := exists_writes wired validHere shipsHere fitsHere
    obtain ⟨parts, toldRest, delivered, distinct⟩ := ih validRest shipsRest fitsRest apartRest
    obtain ⟨batches, mades, delivered⟩ := Fallible.bind_eq_ok.mp delivered
    have batch : tx.batch table cfg relations relationID = .ok ⟨tx.txID, built⟩ :=
      Fallible.bind_eq_ok.mpr ⟨_, made, by simp [pure, Except.pure]⟩
    refine ⟨(batchKind tx.txID, writes) :: parts, told.append toldRest, ?_, ?_⟩
    · refine Fallible.bind_eq_ok.mpr ⟨⟨tx.txID, built⟩ :: batches, ?_, ?_⟩
      · rw [List.mapM_cons]
        exact Fallible.bind_eq_ok.mpr ⟨_, batch, Fallible.bind_eq_ok.mpr ⟨_, mades, rfl⟩⟩
      · rw [List.flatMap_cons, deliveries_of_writes wired tx.txID events, Except.ok.inj delivered,
          ← List.map_append, chunked, chunked, chunked, List.flatMap_singleton, List.flatMap_cons]
        rfl
    · refine List.forall_mem_cons.mpr ⟨?_, distinct⟩
      have keys : writes.map (·.key) = tx.logged.map (·.2.key) := by
        simpa [Function.comp_def] using congrArg (List.map Prod.snd) told.labels
      rw [← keys] at apartHere
      exact List.pairwise_map.mp apartHere

/-- The transactions of a source that starts with some rows: each change can be made where it stands, no
transaction changes a row twice, and positions increase. -/
structure SourceHistory (table : CapturedTable site) (source : TableRows V)
    (txs : List (SourceTransaction V)) : Prop where
  valid : RowChange.AllValid site source ((txs.flatMap (·.logged)).map (·.2))
  ships : ∀ entry ∈ txs.flatMap (·.logged), entry.2.Ships table
  increasing : (txs.flatMap (·.logged)).Pairwise (·.1 < ·.1)
  fits : ∀ entry ∈ txs.flatMap (·.logged), (entry.1 : Int) ≤ Json.maxInt64
  apart : ∀ tx ∈ txs, (tx.logged.map (·.2.key)).Nodup

/-- A receiver that mirrors the source and has seen none of the changes: no other region holds a row
under their keys, and its cursor is before them. -/
structure StartsMirrored (site : Site V) (source : TableRows V) (store : Store V)
    (logged : List (Nat × RowChange V)) : Prop where
  plain : ∀ column ∈ site.columns, ',' ∉ column.toList
  slots : ∀ entry ∈ logged, site.Slot entry.2.key (store.tables site.tableRef entry.2.key)
  above : ∀ entry ∈ logged, (site.cursorPosition store.cursors).version < (entry.1 : Int)
  mirrors : Mirrors site source (store.tables site.tableRef)

omit [DecidableEq V] in
theorem length_deliveries (chunks : List (BatchKind × List site.Write)) :
    ((chunks.map deliveryOf).flatMap (·.events)).length = (chunks.flatMap (·.2)).length := by
  rw [List.flatMap_map, List.length_flatMap, List.length_flatMap]
  simp [deliveryOf]

section Runs

variable (wired : table.Wired cfg feed digest relations relationID) {source : TableRows V}
  {txs : List (SourceTransaction V)} (history : SourceHistory table source txs)

include wired history

/-- However far the delivery of the chunks has come, the receiver mirrors the source as it was after the
changes delivered. -/
theorem mirrors_front {store : Store V}
    (start : StartsMirrored site source store (txs.flatMap (·.logged)))
    {parts : List (BatchKind × List site.Write)}
    (told : Told source (txs.flatMap (·.logged)) (parts.flatMap (·.2)))
    (distinct : ∀ part ∈ parts, part.2.Pairwise (·.key ≠ ·.key)) (k : Nat) :
    let delivered := ((chunked feed parts).map deliveryOf).take k
    ∃ final, deliver site.repo site.server .fullSync delivered store = .ok final ∧
      Mirrors site (RowChange.afterAll source (((txs.flatMap (·.logged)).map (·.2)).take
        (delivered.flatMap (·.events)).length)) (final.tables site.tableRef) := by
  intro delivered
  rw [show delivered = ((chunked feed parts).take k).map deliveryOf from List.map_take.symm,
    length_deliveries]
  -- what was delivered is a first part of the history
  have front : ((chunked feed parts).take k).flatMap (·.2) <+: parts.flatMap (·.2) := by
    rw [← flatMap_chunked wired.positive parts]
    refine ⟨((chunked feed parts).drop k).flatMap (·.2), ?_⟩
    rw [← List.flatMap_append, List.take_append_drop]
  have keyed {write : site.Write} (mem : write ∈ ((chunked feed parts).take k).flatMap (·.2)) :=
    told.entry (front.subset mem)
  have apart : ∀ chunk ∈ (chunked feed parts).take k, chunk.2.Pairwise (·.key ≠ ·.key) := by
    intro chunk mem
    obtain ⟨part, inParts, inside⟩ := List.mem_flatMap.mp (List.mem_of_mem_take mem)
    obtain ⟨piece, inChunks, rfl⟩ := List.mem_map.mp inside
    exact (distinct part inParts).sublist (Chunks.sublist_of_mem_chunks wired.positive inChunks)
  obtain ⟨final, ran, views⟩ := @Site.deliver_writes _ _ _ store ((chunked feed parts).take k)
    (told.replayable history.increasing start.plain front.sublist) apart
    (fun write mem => by
      obtain ⟨entry, inLog, same, _⟩ := keyed mem
      exact same ▸ start.slots entry inLog)
    (fun write mem => by
      obtain ⟨entry, inLog, _, version⟩ := keyed mem
      apply before_of_version_lt
      change _ < write.event.version
      rw [version]
      exact start.above entry inLog)
  refine ⟨final, ran, fun key => ?_⟩
  rw [told.effect, views key, start.mirrors key, ← List.prefix_iff_eq_take.mp front]

end Runs

end Transactions

namespace Users

def textTable : CapturedTable site := table .string nofun

theorem wired : textTable.Wired (usersCapture true) usersFeed (fun _ => "event")
    (relations .string nofun) 1 where
  captures := rfl
  known := Std.ExtTreeMap.getElem?_insert_self
  feeds := rfl
  broadcasts := rfl
  positive := by decide
  identifies _ := by decide
  named := by decide
  integers column typed := by
    change ((∅ : Std.ExtTreeMap String PrimaryKeyType).insert "id" .string)[column]? = _ at typed
    rw [Std.ExtTreeMap.getElem?_insert] at typed
    split at typed <;> cases typed

/-- A user is inserted and, in another transaction, renamed. -/
def insertUser : SourceTransaction String := ⟨"0/96", [(115, .insert ["1"] (row "1" "ann" "eu"))]⟩

def renameUser : SourceTransaction String :=
  ⟨"0/FA", [(215, .update ["1"] (row "1" "ann" "eu") ["1"] (row "1" "bob" "eu"))]⟩

theorem keyText_row (name : String) : textTable.KeyText (row "1" name "eu") := by
  constructor
  · intro column mem value has
    obtain rfl := List.mem_singleton.mp mem
    cases has
    decide
  · intro column mem
    rw [List.mem_singleton.mp mem]
    decide

theorem userHistory : SourceHistory textTable (rows none) [insertUser, renameUser] where
  valid := ⟨⟨rfl, rfl, rfl⟩, ⟨rfl, rfl, rfl, rfl, rfl, .inl rfl⟩, trivial⟩
  ships := by
    intro entry mem
    rcases List.mem_pair.mp mem with rfl | rfl
    · exact keyText_row "ann"
    · exact ⟨keyText_row "bob", rfl, "name", by decide, by decide, by decide⟩
  increasing := by decide
  fits := by
    intro entry mem
    rcases List.mem_pair.mp mem with rfl | rfl <;> decide
  apart := by
    intro tx mem
    rcases List.mem_pair.mp mem with rfl | rfl <;> decide

theorem startsMirrored : StartsMirrored site (rows none) (receiver none)
    ([insertUser, renameUser].flatMap (·.logged)) where
  plain := by decide
  slots entry _ := ⟨by rintro row ⟨⟩, by rintro row ⟨⟩⟩
  above := by
    intro entry mem
    rcases List.mem_pair.mp mem with rfl | rfl <;> decide
  mirrors _ := rfl

/-- The outbox row of the insert. -/
def insertBatch : OutboxBatch :=
  ⟨0, "us", "", 1, [⟨"eu", "users", "event", userKey "1", .insert, 115, user "1" "ann"⟩], 0, "0/96"⟩

end Users

end Transmogr

import Transmogr.Capture
import Transmogr.Receiving

/-! Captured transactions are delivered in commit order, while the version of a
change is its place in the WAL. The receiver skips a change when the two orders
disagree within a table. -/
namespace Transmogr.CaptureOrder

open Sql

/-- A change as the receiver places it. -/
structure Placed where
  table : String
  position : Position

/-- The position the cursor column returns. -/
def Placed.stored (change : Placed) : Position :=
  ⟨change.position.version, storedKey change.position.key⟩

/-- The change of the same table right before `change`: in its own batch as it
is, in an earlier batch as the cursor column returns it. -/
def previousPosition (done : List (List Placed)) (pre : List Placed) (change : Placed) :
    Option Position :=
  match (pre.filter (·.table = change.table)).getLast? with
  | some previous => some previous.position
  | none => (done.flatten.filter (·.table = change.table)).getLast?.map (·.stored)

/-- Every change is above the one of its table delivered right before it. -/
def InTableOrder (batches : List (List Placed)) : Prop :=
  ∀ done changes rest pre change post, batches = done ++ changes :: rest →
    changes = pre ++ change :: post →
    ∀ p, previousPosition done pre change = some p → p.Before change.position

def placed (event : ReplicationEvent) : Placed := ⟨event.table, event.position⟩

/-- The stored cursors after batches that were applied whole. -/
def cursorsAfter (cursors : Cursors) (done : List (List ReplicationEvent)) : Cursors :=
  done.foldl saveFinalCursors cursors

theorem readCursor_saveFinal_congr {c c' : Cursors} (events : List ReplicationEvent)
    (agree : ∀ r t, readCursor c r t = readCursor c' r t) (r t : String) :
    readCursor (saveFinalCursors c events) r t = readCursor (saveFinalCursors c' events) r t := by
  simp only [saveFinalCursors, saveStateCursor]
  rw [readCursor_foldl_set (fun _ => ⟨rfl, rfl⟩), readCursor_foldl_set (fun _ => ⟨rfl, rfl⟩), agree]

/-- A list ascends when each event is above the cursor its predecessors leave. -/
theorem ascends_iff_split {cursors : Cursors} {events : List ReplicationEvent} :
    Ascends cursors events ↔ ∀ pre event post, events = pre ++ event :: post →
      (readCursor (runningCursors cursors pre) event.peerRegion event.table).position.Before
        event.position := by
  induction events generalizing cursors with
  | nil => exact ⟨fun _ pre event post h => by simp at h, fun _ => trivial⟩
  | cons head events ih =>
    rw [Ascends, ih]
    constructor
    · rintro ⟨first, rest⟩ pre event post h
      cases pre with
      | nil =>
        obtain ⟨rfl, -⟩ := List.cons.inj h
        exact first
      | cons x pre =>
        obtain ⟨rfl, tail⟩ := List.cons.inj h
        exact rest pre event post tail
    · intro all
      refine ⟨all [] head events rfl, fun pre event post h => ?_⟩
      exact all (head :: pre) event post (by rw [h]; rfl)

theorem ascends_congr {c c' : Cursors} {events : List ReplicationEvent}
    (agree : ∀ r t, readCursor c r t = readCursor c' r t) : Ascends c events ↔ Ascends c' events := by
  rw [ascends_iff_split, ascends_iff_split]
  have running : ∀ pre r t, readCursor (runningCursors c pre) r t =
      readCursor (runningCursors c' pre) r t := by
    intro pre r t
    simp only [runningCursors]
    rw [readCursor_foldl_set (fun _ => ⟨rfl, rfl⟩), readCursor_foldl_set (fun _ => ⟨rfl, rfl⟩),
      agree]
  simp only [running]

/-- What the filter compares an event with, when all events have one origin. -/
theorem cursor_before {region : String} {done : List (List ReplicationEvent)}
    {pre : List ReplicationEvent} {event : ReplicationEvent} (here : event.peerRegion = region)
    (origin : ∀ e ∈ pre ++ done.flatten, e.peerRegion = region) :
    (readCursor (runningCursors (cursorsAfter (fun _ _ => none) done) pre) event.peerRegion
      event.table).position =
    (previousPosition (done.map (·.map placed)) (pre.map placed) (placed event)).getD ⟨0, []⟩ := by
  have saved : cursorsAfter (fun _ _ => none) done =
      done.flatten.foldl (fun cursors e => saveStateCursor cursors e.cursor) (fun _ _ => none) := by
    rw [cursorsAfter, List.foldl_flatten]
    rfl
  have byTable : ∀ events : List ReplicationEvent, (∀ e ∈ events, e.peerRegion = region) →
      (events.map placed).filter (·.table = (placed event).table) =
        (events.filter (pairIs event.peerRegion event.table)).map placed := by
    intro events same
    rw [List.filter_map]
    refine congrArg _ (List.filter_congr fun e mem => ?_)
    exact decide_eq_decide.mpr (by simp [placed, same e mem, here])
  rw [runningCursors, readCursor_foldl_set (fun _ => ⟨rfl, rfl⟩), saved]
  simp only [saveStateCursor]
  rw [readCursor_foldl_set (fun _ => ⟨rfl, rfl⟩), previousPosition,
    byTable pre fun e mem => origin e (List.mem_append_left _ mem), ← List.map_flatten,
    byTable done.flatten fun e mem => origin e (List.mem_append_right _ mem)]
  simp only [List.getLast?_map]
  cases (pre.filter (pairIs event.peerRegion event.table)).getLast? with
  | some e => rfl
  | none => cases (done.flatten.filter (pairIs event.peerRegion event.table)).getLast? <;> rfl

section Deliveries

variable {V : Type} [DecidableEq V] {repo : Repository} {server : Server V}
  {mode : ReplicationApplyMode} {store final : Store V}

theorem skipped_transactions {batches done : List (List ReplicationEvent)}
    (nonempty : ∀ events ∈ batches, events ≠ [])
    (allowed : ∀ events ∈ batches, ∀ e ∈ events, Allowed mode e)
    (agree : ∀ r t, readCursor store.cursors r t =
      readCursor (cursorsAfter (fun _ _ => none) done) r t)
    (ok : deliver repo server mode (batches.map (⟨.transactionBatch, ·⟩)) store = .ok final) :
    skipped repo server mode (batches.map (⟨.transactionBatch, ·⟩)) store = [] ↔
      ∀ before events rest, batches = before ++ events :: rest →
        Ascends (cursorsAfter (fun _ _ => none) (done ++ before)) events := by
  induction batches generalizing store done with
  | nil => exact ⟨fun _ before events rest h => by simp at h, fun _ => rfl⟩
  | cons events batches ih =>
    obtain ⟨mid, head, tail⟩ := Fallible.bind_eq_ok.mp ok
    obtain ⟨ordered, commit⟩ := applyBatch_of_allowed (allowed events List.mem_cons_self)
      (nonempty events List.mem_cons_self) head
    change orderedEvents mode ⟨.transactionBatch, events⟩ = events at ordered
    have locked : ∀ r t, readCursor (lockCursors store.cursors events) r t =
        readCursor (cursorsAfter (fun _ _ => none) done) r t := fun r t =>
      (readCursor_lock ..).trans (agree r t)
    have here : skippedOfBatch mode store.cursors ⟨.transactionBatch, events⟩ = [] ↔
        Ascends (cursorsAfter (fun _ _ => none) done) events := by
      rw [skippedOfBatch, ordered, skippedStale_eq_nil_iff, ascends_congr locked]
    rw [List.map_cons, skipped, collect_cons head, List.append_eq_nil_iff, here]
    have split : (∀ before es rest, events :: batches = before ++ es :: rest →
          Ascends (cursorsAfter (fun _ _ => none) (done ++ before)) es) ↔
        Ascends (cursorsAfter (fun _ _ => none) done) events ∧
          ∀ before es rest, batches = before ++ es :: rest →
            Ascends (cursorsAfter (fun _ _ => none) ((done ++ [events]) ++ before)) es := by
      constructor
      · intro all
        refine ⟨by simpa using all [] events batches rfl, fun before es rest h => ?_⟩
        simpa using all (events :: before) es rest (by rw [h]; rfl)
      · rintro ⟨first, later⟩ before es rest h
        cases before with
        | nil =>
          obtain ⟨rfl, -⟩ := List.cons.inj h
          simpa using first
        | cons x before =>
          obtain ⟨rfl, after⟩ := List.cons.inj h
          simpa using later before es rest after
    rw [split]
    refine and_congr_right fun ascends => ?_
    obtain ⟨tables, _, stored⟩ := commit_eq_ok.mp commit
    change mid = ⟨tables, saveFinalCursors (lockCursors store.cursors events)
      (filterStale (lockCursors store.cursors events) events)⟩ at stored
    rw [filterStale_of_ascends ((ascends_congr locked).mpr ascends)] at stored
    refine ih (fun es mem => nonempty es (List.mem_cons_of_mem _ mem))
      (fun es mem => allowed es (List.mem_cons_of_mem _ mem)) (fun r t => ?_) tail
    rw [stored, cursorsAfter, List.foldl_append]
    exact readCursor_saveFinal_congr events locked r t

theorem deliver_validated {batches : List Batch}
    (ok : deliver repo server mode batches store = .ok final) :
    ∀ batch ∈ batches, ∀ e ∈ batch.events, e.primaryKey ≠ [] := by
  induction batches generalizing store with
  | nil => intro batch mem; cases mem
  | cons head batches ih =>
    obtain ⟨mid, applied, tail⟩ := Fallible.bind_eq_ok.mp ok
    obtain ⟨prepared, prepare, _⟩ := applyBatch_eq_ok.mp applied
    intro batch mem e memE
    rcases List.mem_cons.mp mem with rfl | mem
    · exact key_ne_nil_of_validated (prepareEvents_validated prepare e memE)
    · exact ih tail batch mem e memE

/-- Transactions of one origin skip nothing exactly when every event is above
the event of its table before it. -/
theorem skipped_iff_inTableOrder {region : String} {batches : List (List ReplicationEvent)}
    (nonempty : ∀ events ∈ batches, events ≠ [])
    (allowed : ∀ events ∈ batches, ∀ e ∈ events, Allowed mode e)
    (origin : ∀ events ∈ batches, ∀ e ∈ events, e.peerRegion = region)
    (versions : ∀ events ∈ batches, ∀ e ∈ events, 0 ≤ e.version)
    (empty : ∀ r t, store.cursors r t = none)
    (ok : deliver repo server mode (batches.map (⟨.transactionBatch, ·⟩)) store = .ok final) :
    skipped repo server mode (batches.map (⟨.transactionBatch, ·⟩)) store = [] ↔
      InTableOrder (batches.map (·.map placed)) := by
  have agree : ∀ r t, readCursor store.cursors r t =
      readCursor (cursorsAfter (fun _ _ => none) []) r t := fun r t => by
    rw [readCursor, empty]
    rfl
  have keys : ∀ events ∈ batches, ∀ e ∈ events, e.primaryKey ≠ [] := by
    simpa using deliver_validated ok
  have each : ∀ done events rest pre event post, batches = done ++ events :: rest →
      events = pre ++ event :: post →
      ((readCursor (runningCursors (cursorsAfter (fun _ _ => none) done) pre) event.peerRegion
          event.table).position.Before event.position ↔
        ∀ p, previousPosition (done.map (·.map placed)) (pre.map placed) (placed event) = some p →
          p.Before (placed event).position) := by
    intro done events rest pre event post split within
    subst split within
    have here : (pre ++ event :: post) ∈ done ++ (pre ++ event :: post) :: rest := by simp
    have mem : event ∈ pre ++ event :: post := by simp
    have previous : ∀ e ∈ pre ++ done.flatten, e.peerRegion = region := by
      intro e memE
      rcases List.mem_append.mp memE with memE | memE
      · exact origin _ here e (List.mem_append_left _ memE)
      · obtain ⟨earlier, memEarlier, memE⟩ := List.mem_flatten.mp memE
        exact origin earlier (List.mem_append_left _ memEarlier) e memE
    rw [cursor_before (origin _ here event mem) previous]
    cases previousPosition (done.map (·.map placed)) (pre.map placed) (placed event) with
    | none =>
      have first := zero_before (versions _ here event mem) (keys _ here event mem)
      exact ⟨fun _ p found => absurd found (by simp), fun _ => first⟩
    | some p => exact ⟨fun before q eq => by cases eq; exact before, fun all => all p rfl⟩
  rw [skipped_transactions nonempty allowed agree ok]
  simp only [List.nil_append, ascends_iff_split]
  constructor
  · intro all done changes rest pre change post split within
    obtain ⟨done, more, rfl, rfl, tail⟩ := List.map_eq_append_iff.mp split
    obtain ⟨events, rest, rfl, rfl, rfl⟩ := List.map_eq_cons_iff.mp tail
    obtain ⟨pre, more, rfl, rfl, tail⟩ := List.map_eq_append_iff.mp within
    obtain ⟨event, post, rfl, rfl, rfl⟩ := List.map_eq_cons_iff.mp tail
    exact (each done _ rest pre event post rfl rfl).mp (all done _ rest rfl pre event post rfl)
  · intro all done events rest split pre event post within
    refine (each done events rest pre event post split within).mpr ?_
    subst split within
    exact all (done.map (·.map placed)) ((pre ++ event :: post).map placed) (rest.map (·.map placed))
      (pre.map placed) (placed event) (post.map placed) (by simp) (by simp)

end Deliveries

/-- The batches a stream hands to `onBatch` when every call succeeds. -/
def captureBatches (cfg : CaptureConfig) :
    CaptureState → List XLogData → Except String (List ChangefeedBatch)
  | _, [] => .ok []
  | s, xld :: stream => do
    let next ← captureStep cfg (fun _ => .ok ()) s xld
    let later ← captureBatches cfg next stream
    return match xld.message with
      | .commit => s.pendingBatch.toList ++ later
      | _ => later

/-- A captured row message and the change the code makes of it. -/
structure WalRow where
  message : XLogData
  change : ChangefeedChange

/-- The row of one message, if it is captured. -/
def rowOf (cfg : CaptureConfig) (relations : Relations) (xld : XLogData) : Option WalRow :=
  match changeOf cfg relations xld with
  | .ok (some change) => some ⟨xld, change⟩
  | _ => none

/-- The captured rows of the committed transactions of a stream, in commit order. -/
def committedRows (cfg : CaptureConfig) :
    CaptureState → List WalRow → List XLogData → List (List WalRow)
  | _, _, [] => []
  | s, pending, xld :: stream =>
    match captureStep cfg (fun _ => .ok ()) s xld with
    | .error _ => []
    | .ok next =>
      match xld.message with
      | .begin _ => committedRows cfg next [] stream
      | .commit => pending :: committedRows cfg next [] stream
      | _ => committedRows cfg next (pending ++ (rowOf cfg s.relations xld).toList) stream

/-- Where the receiver places a row: at the end of its message in the WAL. -/
def WalRow.placed (row : WalRow) : Placed :=
  ⟨row.change.table, ⟨row.message.nextLSN, throughWire row.change.primaryKey⟩⟩

/-- The rows as they are sent: without what the broadcast mode holds back, and
each transaction cut at `maxBatchEvents`. -/
def sentRows (feed : ChangefeedConfig) (rows : List (List WalRow)) : List (List WalRow) :=
  rows.flatMap fun transaction => Chunks.chunks feed.maxBatchEvents
    (transaction.filter fun row => broadcastAllowed feed.broadcastMode row.change.operation)

section Rows

variable {cfg : CaptureConfig} {onBatch : ChangefeedBatch → Except String Unit}
  {s next : CaptureState} {xld : XLogData}

theorem rowOf_eq_some {relations : Relations} {row : WalRow}
    (found : rowOf cfg relations xld = some row) :
    row.message = xld ∧ row.change.version = xld.nextLSN ∧
      (row.change.operation = .insert ∨ row.change.operation = .update ∨
        row.change.operation = .delete) := by
  rw [rowOf] at found
  split at found
  · next change built =>
    cases found
    refine ⟨rfl, ?_⟩
    unfold changeOf at built
    split at built
    · obtain ⟨_, _, _, _, _, _, _, rfl⟩ := buildWriteChange_eq_some built
      exact ⟨rfl, .inl rfl⟩
    · rw [buildUpdateChange] at built
      split at built
      · obtain ⟨_, _, _, _, _, _, _, rfl⟩ := buildUpdateDiffChange_eq_some built
        exact ⟨rfl, .inr (.inl rfl)⟩
      · obtain ⟨_, _, _, _, _, _, _, rfl⟩ := buildWriteChange_eq_some built
        exact ⟨rfl, .inr (.inl rfl)⟩
    · obtain ⟨_, _, _, _, _, rfl⟩ := buildDeleteChange_eq_some built
      exact ⟨rfl, .inr (.inr rfl)⟩
    · cases built
  · cases found

/-- A row message appends its row to the open transaction; `begin` and `commit`
empty it, and the other messages leave it alone. -/
theorem captureStep_txChanges (ok : captureStep cfg onBatch s xld = .ok next) :
    next.txChanges = match xld.message with
      | .begin _ => []
      | .commit => []
      | _ => s.txChanges ++ (rowOf cfg s.relations xld).toList.map (·.change) := by
  rw [rowOf, changeOf]
  cases message : xld.message with
  | relation id schema name columns =>
    simp only [captureStep, message] at ok
    obtain ⟨resolved, _, ok⟩ := Fallible.bind_eq_ok.mp ok
    cases resolved <;> cases ok <;> simp [CaptureState.addRelation]
  | insert | update | delete =>
    simp only [captureStep, message] at ok
    obtain ⟨change, built, ok⟩ := Fallible.bind_eq_ok.mp ok
    cases ok
    cases change <;> simp [built, CaptureState.append]
  | begin lsn =>
    simp only [captureStep, message] at ok
    cases ok
    rfl
  | commit =>
    obtain ⟨_, rfl⟩ := (captureStep_commit message).mp ok
    rfl
  | other =>
    simp only [captureStep, message] at ok
    cases ok
    simp

/-- The batches handed over hold the changes of the committed rows. -/
theorem changes_of_committedRows {β : Type} (send : List ChangefeedChange → List β)
    (nothing : send [] = []) {stream : List XLogData} {pending : List WalRow}
    {batches : List ChangefeedBatch} (open_ : pending.map (·.change) = s.txChanges)
    (ok : captureBatches cfg s stream = .ok batches) :
    batches.flatMap (fun batch => send batch.changes) =
      (committedRows cfg s pending stream).flatMap fun rows => send (rows.map (·.change)) := by
  induction stream generalizing s pending batches with
  | nil => cases ok; rfl
  | cons xld stream ih =>
    rw [captureBatches] at ok
    obtain ⟨next, step, ok⟩ := Fallible.bind_eq_ok.mp ok
    obtain ⟨later, laterOk, ok⟩ := Fallible.bind_eq_ok.mp ok
    have changes := captureStep_txChanges step
    rw [committedRows, step]
    cases message : xld.message with
    | commit =>
      simp only [message] at ok changes ⊢
      cases ok
      rw [List.flatMap_append, List.flatMap_cons, ih (List.map_nil.trans changes.symm) laterOk, open_]
      refine congrArg (· ++ _) ?_
      rw [CaptureState.pendingBatch]
      cases s.txChanges <;> simp [nothing]
    | begin lsn =>
      simp only [message] at ok changes ⊢
      cases ok
      exact ih (by rw [changes]; rfl) laterOk
    | _ =>
      simp only [message] at ok changes ⊢
      cases ok
      exact ih (by rw [changes, List.map_append, open_]) laterOk

theorem committedRows_mem {stream : List XLogData} {pending rows : List WalRow} {row : WalRow}
    (mem : rows ∈ committedRows cfg s pending stream) (memRow : row ∈ rows) :
    row ∈ pending ∨ ∃ relations xld, rowOf cfg relations xld = some row := by
  induction stream generalizing s pending with
  | nil => cases mem
  | cons xld stream ih =>
    rw [committedRows] at mem
    split at mem
    · cases mem
    · split at mem
      · exact (ih mem).elim nofun .inr
      · rcases List.mem_cons.mp mem with rfl | mem
        · exact .inl memRow
        · exact (ih mem).elim nofun .inr
      · rcases ih mem with mem | found
        · rcases List.mem_append.mp mem with mem | mem
          · exact .inl mem
          · exact .inr ⟨_, xld, Option.mem_toList.mp mem⟩
        · exact .inr found

end Rows

section Pipeline

variable {digest : Bytes → String} {cfg : CaptureConfig} {feed : ChangefeedConfig}
  {V : Type} [DecidableEq V] {repo : Repository} {server : Server V} {store final : Store V}

/-- The event of a row as the receiver decodes it. -/
def WalRow.received (digest : Bytes → String) (feed : ChangefeedConfig) (row : WalRow) :
    ReplicationEvent :=
  (eventOfChange digest feed row.change).received

/-- The outbox batches of the captured transactions are the rows as they are sent. -/
theorem enqueued_eq_sentRows {stream : List XLogData} {batches : List ChangefeedBatch}
    (captured : captureBatches cfg s stream = .ok batches) (fresh : s.txChanges = []) :
    batches.flatMap (fun batch => enqueueChunks feed (handleBatchEvents digest feed batch.changes)) =
      (sentRows feed (committedRows cfg s [] stream)).map
        (·.map fun row => eventOfChange digest feed row.change) := by
  rw [changes_of_committedRows (fun changes => enqueueChunks feed (handleBatchEvents digest feed changes))
    rfl (List.map_nil.trans fresh.symm) captured, sentRows, List.map_flatMap]
  refine congrArg (fun f => List.flatMap f _) (funext fun rows => ?_)
  rw [enqueueChunks, handleBatchEvents, List.filter_map, List.map_map, Chunks.chunks_map]
  rfl

theorem row_version {relations : Relations} {xld : XLogData} {row : WalRow}
    (found : rowOf cfg relations xld = some row) : row.change.version = row.message.nextLSN := by
  obtain ⟨rfl, version, _⟩ := rowOf_eq_some found
  exact version

/-- The wire keeps the operation of a captured row, and full sync lets it through. -/
theorem received_allowed {relations : Relations} {xld : XLogData} {row : WalRow}
    (found : rowOf cfg relations xld = some row) : Allowed .fullSync (row.received digest feed) := by
  obtain ⟨_, _, operation⟩ := rowOf_eq_some found
  rw [Allowed, WalRow.received, ReplicationEvent.received, eventOfChange]
  rcases operation with op | op | op <;> simp [op, toProtoOperation, fromProtoOperation] <;> rfl

theorem sentRows_mem {s : CaptureState} {stream : List XLogData} {batch : List WalRow}
    (max : 0 < feed.maxBatchEvents) (mem : batch ∈ sentRows feed (committedRows cfg s [] stream)) :
    batch ≠ [] ∧ ∀ row ∈ batch, ∃ relations xld, rowOf cfg relations xld = some row := by
  obtain ⟨rows, memRows, memBatch⟩ := List.mem_flatMap.mp mem
  refine ⟨Chunks.ne_nil_of_mem_chunks max memBatch, fun row memRow => ?_⟩
  have inRows : row ∈ rows :=
    List.filter_sublist.subset ((Chunks.sublist_of_mem_chunks max memBatch).subset memRow)
  exact (committedRows_mem memRows inRows).resolve_left nofun

/-- Captured transactions are handed over in commit order, cut into batches,
sent over the wire and applied once each to a receiver without cursors. No
change is skipped exactly when each row's message ends in the WAL after the one
of the same table sent before it, or at the same place with a greater key. -/
theorem captured_rows_applied_iff {startLSN : Nat} {stream : List XLogData}
    {batches : List ChangefeedBatch} {received : List (List ReplicationEvent)}
    (max : 0 < feed.maxBatchEvents)
    (captured : captureBatches cfg (.initial startLSN) stream = .ok batches)
    (decoded : (batches.flatMap fun batch =>
        enqueueChunks feed (handleBatchEvents digest feed batch.changes)).mapM
      (fun batch => toReplicationEvents (toProtoEvents batch)) = .ok received)
    (empty : ∀ r t, store.cursors r t = none)
    (delivered : deliver repo server .fullSync (received.map (⟨.transactionBatch, ·⟩)) store =
      .ok final) :
    skipped repo server .fullSync (received.map (⟨.transactionBatch, ·⟩)) store = [] ↔
      InTableOrder ((sentRows feed (committedRows cfg (.initial startLSN) [] stream)).map
        (·.map WalRow.placed)) := by
  rw [enqueued_eq_sentRows captured rfl, decodeBatches_eq, List.map_map] at decoded
  cases decoded
  have made : ∀ batch ∈ sentRows feed (committedRows cfg (.initial startLSN) [] stream),
      batch ≠ [] ∧ ∀ row ∈ batch, ∃ relations xld, rowOf cfg relations xld = some row :=
    fun batch => sentRows_mem max
  generalize sentRows feed (committedRows cfg (.initial startLSN) [] stream) = sent at *
  have events : ((fun batch : List ReplicationEvent => batch.map (·.received)) ∘
      fun batch : List WalRow => batch.map fun row => eventOfChange digest feed row.change) =
      (·.map (WalRow.received digest feed)) := by
    funext batch
    simp [WalRow.received]
  rw [events] at delivered ⊢
  have places : sent.map (·.map WalRow.placed) =
      (sent.map (·.map (WalRow.received digest feed))).map (·.map placed) := by
    rw [List.map_map]
    refine List.map_congr_left fun batch mem => ?_
    rw [Function.comp_apply, List.map_map]
    refine List.map_congr_left fun row memRow => ?_
    obtain ⟨relations, xld, found⟩ := (made batch mem).2 row memRow
    rw [WalRow.placed, ← row_version found]
    rfl
  rw [places]
  have eachRow : ∀ {P : ReplicationEvent → Prop},
      (∀ batch ∈ sent, ∀ row ∈ batch, P (row.received digest feed)) →
      ∀ es ∈ sent.map (·.map (WalRow.received digest feed)), ∀ e ∈ es, P e := by
    intro P all es mem e memE
    obtain ⟨batch, memBatch, rfl⟩ := List.mem_map.mp mem
    obtain ⟨row, memRow, rfl⟩ := List.mem_map.mp memE
    exact all batch memBatch row memRow
  have origin : ∀ es ∈ sent.map (·.map (WalRow.received digest feed)), ∀ e ∈ es,
      e.peerRegion = feed.localRegion := eachRow fun batch mem row memRow => rfl
  refine skipped_iff_inTableOrder ?_ ?_ origin ?_ empty delivered
  · intro es mem
    obtain ⟨batch, memBatch, rfl⟩ := List.mem_map.mp mem
    simpa using (made batch memBatch).1
  · refine eachRow fun batch mem row memRow => ?_
    obtain ⟨relations, xld, found⟩ := (made batch mem).2 row memRow
    exact received_allowed found
  · refine eachRow fun batch mem row memRow => ?_
    obtain ⟨relations, xld, found⟩ := (made batch mem).2 row memRow
    change 0 ≤ row.change.version
    rw [row_version found]
    exact Int.natCast_nonneg _

end Pipeline

def usersRelation : XLogData := ⟨0, 40, .relation 1 "public" "users" ["id", "name", "region"]⟩

/-- A transaction that inserts one user: where the row and the commit record
stand in the WAL. -/
def insertUser (walStart commitLSN : Nat) (id : String) : List XLogData :=
  [⟨commitLSN, 21, .begin commitLSN⟩,
    ⟨walStart, 30, .insert 1 (some [⟨.text, id⟩, ⟨.text, "ann"⟩, ⟨.text, "eu"⟩])⟩,
    ⟨commitLSN + 8, 26, .commit⟩]

/-- The second transaction wrote its row first and committed last. -/
theorem captured_row_skipped :
    ∃ batches received final,
      captureBatches (usersCapture false) (.initial 50)
        (usersRelation :: insertUser 150 200 "a" ++ insertUser 100 300 "b") = .ok batches ∧
      (batches.flatMap fun batch => enqueueChunks usersFeed
          (handleBatchEvents (fun _ => "event") usersFeed batch.changes)).mapM
        (fun batch => toReplicationEvents (toProtoEvents batch)) = .ok received ∧
      deliver usersRepository usersServer .fullSync (received.map (⟨.transactionBatch, ·⟩))
        (.empty String) = .ok final ∧
      (skipped usersRepository usersServer .fullSync (received.map (⟨.transactionBatch, ·⟩))
        (.empty String)).map (·.primaryKey) = [userKey "b"] := by
  refine ⟨_, _, _, rfl, rfl, rfl, ?_⟩
  decide

theorem captured_rows_applied_iff_users :
    ∃ received : List (List ReplicationEvent),
      received.map (·.map (·.primaryKey)) = [[userKey "a"], [userKey "b"]] ∧
      (skipped usersRepository usersServer .fullSync (received.map (⟨.transactionBatch, ·⟩))
          (.empty String) = [] ↔
        InTableOrder ((sentRows usersFeed (committedRows (usersCapture false) (.initial 50) []
          (usersRelation :: insertUser 100 200 "a" ++ insertUser 150 300 "b"))).map
            (·.map WalRow.placed))) := by
  refine ⟨_, ?_, @captured_rows_applied_iff (fun _ => "event") (usersCapture false) usersFeed String _
    usersRepository usersServer (.empty String) _ 50 _ _ _ (by decide) rfl rfl (fun _ _ => rfl) rfl⟩
  decide

end Transmogr.CaptureOrder

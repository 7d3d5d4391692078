import Mathlib.Data.Set.List
import Transmogr.Mirror
import Transmogr.Skipping

/-! A receiver that catches up: a snapshot whose rows were read at different points of
the sender's history, then a replay that may start before those points. -/
namespace Transmogr

open Sql Overwrite

namespace Site

section Definitions

variable {V : Type} (site : Site V)

/-- One entry of the sender's history: what it did to a row, and the event it sent. -/
structure Write where
  event : ReplicationEvent
  key : List V
  change : Change String (Option V)
  table : event.table = site.table
  peerRegion : event.peerRegion = site.region
  valid : validateEvent event = .ok ()
  parts : ∃ object row, primaryKeyPayload event.primaryKey = some object ∧
    site.Prints object site.spec.primaryKey row ∧ site.key row = some key
  tells : site.Tells event key change

def Write.entry {site : Site V} (write : site.Write) : List V × Change String (Option V) :=
  (write.key, write.change)

/-- The sender's own rows of the table and everything it did to them since. -/
structure Sender where
  initial : TableRows V
  images : ∀ key row, initial key = some row → site.Image key row
  history : List site.Write

/-- A snapshot and a replay. `readAt` is how much of the history had happened when the
chunk with a row was read; the chunks list their rows with the keys they have. -/
structure CatchUp where
  sender : site.Sender
  readAt : List V → Nat
  chunks : List (List (List V × SnapshotRow))
  start : Nat
  batches : List (BatchKind × List site.Write)

variable {site} [DecidableEq V]

namespace Sender

variable (sender : site.Sender)

/-- The sender's rows after the first `n` entries of its history. -/
def rowsAt (n : Nat) : TableRows V := fun key =>
  replay (atKey key ((sender.history.map Write.entry).take n)) (sender.initial key)

def finalRows : TableRows V := fun key =>
  replay (atKey key (sender.history.map Write.entry)) (sender.initial key)

/-- The sender has or had a row under the key. -/
def Has (key : List V) : Prop :=
  sender.initial key ≠ none ∨ ∃ write ∈ sender.history, write.key = key

end Sender

namespace CatchUp

variable (c : site.CatchUp)

/-- Positions increase, every row is read as it was at its point, the replay is a suffix
of the history that has at least what follows each row's point, and no batch has two
events of one key. -/
structure Valid : Prop where
  increases : c.sender.history.Pairwise fun w w' => w.event.position.Before w'.event.position
  once : c.chunks.flatten.Pairwise (·.1 ≠ ·.1)
  reads : ∀ entry ∈ c.chunks.flatten, ∃ object row, entry.2.payload = some object ∧
    c.sender.rowsAt (c.readAt entry.1) entry.1 = some row ∧ site.Prints object site.columns row
  covers : ∀ key row, c.sender.rowsAt (c.readAt key) key = some row →
    ∃ entry ∈ c.chunks.flatten, entry.1 = key
  overlaps : ∀ i write, c.sender.history[i]? = some write → c.readAt write.key ≤ i → c.start ≤ i
  delivers : c.batches.flatMap (·.2) = c.sender.history.drop c.start
  apart : ∀ batch ∈ c.batches, batch.2.Pairwise (·.key ≠ ·.key)

/-- `ApplySnapshotChunk` for every chunk, then the replayed batches. -/
def run (store : Store V) : Except String (Store V) := do
  let tables ← c.chunks.foldlM (fun tables chunk =>
    applySnapshotChunk site.repo site.server site.region site.table (chunk.map (·.2)) tables)
    store.tables
  deliver site.repo site.server .fullSync
    (c.batches.map fun batch => ⟨batch.1, batch.2.map Write.event⟩) ⟨tables, store.cursors⟩

/-- The receiver ends with exactly the sender's final rows. -/
def Converges (store : Store V) : Prop :=
  ∃ final, c.run store = .ok final ∧
    ∀ key, site.view (final.tables site.tableRef key) = c.sender.finalRows key

/-- What the sender's statements meet at the receiver: no row of another region under
the sender's keys, no comma in a column's name, updates that name a column outside the
key, and positions that stay in order behind the ones the cursor column returns. -/
structure Reaches (store : Store V) : Prop where
  free : ∀ key row, c.sender.Has key → store.tables site.tableRef key = some row →
    row site.spec.regionField = none
  plain : ∀ column ∈ site.columns, ',' ∉ column.toList
  named : ∀ write ∈ c.sender.history, ∀ named row, write.change = .patch named row →
    ∃ column ∈ named, column ∉ site.spec.primaryKey
  versions : ∀ write ∈ c.sender.history, 0 ≤ write.event.version
  stored : c.sender.history.Pairwise fun w w' => (storedPosition w.event).Before w'.event.position

end CatchUp

variable (site) in
/-- A receiver without rows of the peer and without a cursor for its table. -/
structure Fresh (store : Store V) : Prop where
  keyed : Keyed site (store.tables site.tableRef)
  unowned : ∀ key, site.view (store.tables site.tableRef key) = none
  cursor : readCursor store.cursors site.region site.table = emptyCursor site.region site.table

end Definitions

variable {V : Type} {site : Site V}

section Writes

variable {write : site.Write}

theorem Write.allowed (write : site.Write) : Allowed .fullSync write.event := by
  have tells := write.tells
  unfold Allowed
  cases change : write.change with
  | put row =>
    rw [change] at tells
    cases tells.1 with
    | inl insert => rw [insert]; decide
    | inr upsert => rw [upsert]; decide
  | patch columns row =>
    rw [change] at tells
    rw [tells.operation]
    decide
  | remove =>
    rw [change] at tells
    rw [show write.event.operation = .delete from tells]
    decide

end Writes

variable [DecidableEq V]

section Changes

variable {before after : TableRows V} {changes : List (List V × Change String (Option V))}

theorem Applied.view_replay (applied : site.Applied before after changes)
    (distinct : changes.Pairwise (·.1 ≠ ·.1)) (key : List V) :
    site.view (after key) = replay (atKey key changes) (site.view (before key)) := by
  by_cases touched : ∃ change, (key, change) ∈ changes
  · obtain ⟨change, mem⟩ := touched
    rw [atKey_of_mem distinct mem]
    exact applied.touched _ mem
  · have absent : ∀ entry ∈ changes, entry.1 ≠ key := by
      rintro ⟨_, change⟩ mem rfl
      exact touched ⟨change, mem⟩
    rw [atKey_of_absent absent, applied.untouched key absent]
    rfl

theorem Applied.keeps_slot (applied : site.Applied before after changes) {key : List V}
    (slot : site.Slot key (before key)) : site.Slot key (after key) := by
  by_cases touched : ∃ change, (key, change) ∈ changes
  · obtain ⟨change, mem⟩ := touched
    exact applied.slot _ mem
  · rw [applied.untouched key]
    · exact slot
    · rintro ⟨_, change⟩ mem rfl
      exact touched ⟨change, mem⟩

end Changes

/-! ## The replay -/

section Replay

variable {writes : List site.Write} {kind : BatchKind} {store : Store V}

/-- What a batch of the replay needs of the receiver's columns and of its events. -/
structure Replayable (writes : List site.Write) : Prop where
  plain : ∀ column ∈ site.columns, ',' ∉ column.toList
  named : ∀ write ∈ writes, ∀ named row, write.change = .patch named row →
    ∃ column ∈ named, column ∉ site.spec.primaryKey
  increases : writes.Pairwise fun w w' => w.event.position.Before w'.event.position
  stored : writes.Pairwise fun w w' => (storedPosition w.event).Before w'.event.position

omit [DecidableEq V] in
theorem Replayable.sublist {part : List site.Write} (replayable : Replayable writes)
    (sub : part.Sublist writes) : Replayable part where
  plain := replayable.plain
  named write mem := replayable.named write (sub.subset mem)
  increases := replayable.increases.sublist sub
  stored := replayable.stored.sublist sub

/-- The position of the peer's cursor for the table. -/
def cursorPosition (site : Site V) (cursors : Cursors) : Position :=
  (readCursor cursors site.region site.table).position

theorem applyEventsBatch_writes (replayable : Replayable writes)
    (apart : writes.Pairwise (·.key ≠ ·.key)) {tables : Tables V}
    (slots : ∀ write ∈ writes, site.Slot write.key (tables site.tableRef write.key)) :
    ∃ next, applyEventsBatch site.repo site.server .fullSync (writes.map Write.event) tables =
        .ok next ∧
      site.Applied (tables site.tableRef) (next site.tableRef) (writes.map Write.entry) := by
  let events : List site.Event :=
    writes.pmap (fun w named => ⟨w.event, w.key, w.tells.fits w.table w.peerRegion w.parts named⟩)
      replayable.named
  have sent : events.map Event.event = writes.map Write.event := by simp [events, List.map_pmap]
  have keys : events.map Event.key = writes.map Write.key := by simp [events, List.map_pmap]
  have source : ∀ e ∈ events, ∃ w ∈ writes, e.event = w.event ∧ e.key = w.key := by
    intro e mem
    obtain ⟨w, inWrites, rfl⟩ := List.mem_pmap.mp mem
    exact ⟨w, inWrites, rfl, rfl⟩
  have listed : ∀ w ∈ writes, (w.key, site.change w.event) ∈ events.map Event.change := by
    intro w mem
    exact List.mem_map.mpr ⟨_, List.mem_pmap.mpr ⟨w, mem, rfl⟩, rfl⟩
  have ready : site.Ready events (tables site.tableRef) := by
    constructor
    · apply List.pairwise_map.mp
      rw [keys]
      exact List.pairwise_map.mpr apart
    · intro e mem
      obtain ⟨w, inWrites, _, same⟩ := source e mem
      rw [same]
      exact slots w inWrites
  obtain ⟨next, ran, applied⟩ := applyEventsBatch_events (told_of_plain replayable.plain events) ready
  rw [sent] at ran
  refine ⟨next, ran, ?_, ?_, ?_⟩
  · intro c mem
    obtain ⟨w, inWrites, rfl⟩ := List.mem_map.mp mem
    exact applied.slot (w.key, site.change w.event) (listed w inWrites)
  · intro c mem
    obtain ⟨w, inWrites, rfl⟩ := List.mem_map.mp mem
    exact (applied.touched _ (listed w inWrites)).trans (w.tells.change_apply _)
  · intro key other
    apply applied.untouched
    intro c mem
    obtain ⟨e, inEvents, rfl⟩ := List.mem_map.mp mem
    obtain ⟨w, inWrites, _, same⟩ := source e inEvents
    exact fun here => other _ (List.mem_map_of_mem inWrites) (same.symm.trans here)

omit [DecidableEq V] in
/-- Writes in the order of their positions are committed in that order. -/
theorem commitOrder_writes
    (increases : writes.Pairwise fun w w' => w.event.position.Before w'.event.position) :
    commitOrder kind (writes.map Write.event) = writes.map Write.event := by
  cases kind with
  | transactionBatch => rfl
  | eventBatch =>
    apply List.Pairwise.insertionSort_eq
    rw [List.pairwise_map]
    refine increases.imp fun {w w'} before => ?_
    have order : compareCursorOrderedEvents w.event w'.event =
        comparePositions w.event.position w'.event.position := by
      rw [compareCursorOrderedEvents, w.peerRegion, w'.peerRegion, w.table, w'.table,
        Std.ReflOrd.compare_self, Std.ReflOrd.compare_self]
      rfl
    rw [order, show comparePositions w.event.position w'.event.position = .lt from before]
    rfl

/-- A batch of the replay above the cursor is applied whole, and leaves the cursor behind
whatever it and the batch were behind. -/
theorem applyBatch_writes (replayable : Replayable writes) (apart : writes.Pairwise (·.key ≠ ·.key))
    (slots : ∀ write ∈ writes, site.Slot write.key (store.tables site.tableRef write.key))
    (above : ∀ write ∈ writes, (site.cursorPosition store.cursors).Before write.event.position) :
    ∃ next, applyBatch site.repo site.server .fullSync kind (writes.map Write.event) store =
        .ok next ∧
      site.Applied (store.tables site.tableRef) (next.tables site.tableRef)
        (writes.map Write.entry) ∧
      ∀ p : Position, (site.cursorPosition store.cursors).Before p →
        (∀ write ∈ writes, (storedPosition write.event).Before p) →
        (site.cursorPosition next.cursors).Before p := by
  have prepared : prepareEvents .fullSync (writes.map Write.event) = .ok (writes.map Write.event) := by
    apply prepareEvents_of_valid
    · intro e mem
      obtain ⟨w, _, rfl⟩ := List.mem_map.mp mem
      exact w.allowed
    · intro e mem
      obtain ⟨w, _, rfl⟩ := List.mem_map.mp mem
      exact w.valid
  by_cases empty : writes = []
  · subst empty
    exact ⟨store, rfl, .nil _, fun p before _ => before⟩
  · have ascends : Ascends (lockCursors store.cursors (writes.map Write.event))
        (writes.map Write.event) := by
      apply ascends_of_above
      · intro e mem
        obtain ⟨w, inWrites, rfl⟩ := List.mem_map.mp mem
        rw [readCursor_lock, w.peerRegion, w.table]
        exact above w inWrites
      · apply List.pairwise_map.mpr
        apply replayable.increases.imp
        exact fun before _ => before
    obtain ⟨tables, ran, applied⟩ := applyEventsBatch_writes replayable apart slots
    refine ⟨⟨tables, saveFinalCursors (lockCursors store.cursors (writes.map Write.event))
      (writes.map Write.event)⟩, ?_, applied, fun p _ behind => ?_⟩
    · refine applyBatch_eq_ok.mpr ⟨_, prepared, ?_⟩
      rw [if_neg (by simp [empty]), commitOrder_writes replayable.increases, commit_eq_ok,
        filterStale_of_ascends ascends]
      exact ⟨tables, ran, rfl⟩
    · obtain ⟨early, last, rfl⟩ := (List.eq_nil_or_concat' writes).resolve_left empty
      unfold cursorPosition
      rw [List.map_append, List.map_singleton, readCursor_saveFinal ⟨last.peerRegion, last.table⟩]
      exact behind last (by simp)

/-- The batches of a replay, delivered in order, replay the writes under each key. -/
theorem deliver_writes {batches : List (BatchKind × List site.Write)}
    (replayable : Replayable (batches.flatMap (·.2)))
    (apart : ∀ batch ∈ batches, batch.2.Pairwise (·.key ≠ ·.key))
    (slots : ∀ write ∈ batches.flatMap (·.2),
      site.Slot write.key (store.tables site.tableRef write.key))
    (above : ∀ write ∈ batches.flatMap (·.2),
      (site.cursorPosition store.cursors).Before write.event.position) :
    ∃ final, deliver site.repo site.server .fullSync
        (batches.map fun batch => ⟨batch.1, batch.2.map Write.event⟩) store = .ok final ∧
      ∀ key, site.view (final.tables site.tableRef key) =
        replay (atKey key ((batches.flatMap (·.2)).map Write.entry))
          (site.view (store.tables site.tableRef key)) := by
  induction batches generalizing store with
  | nil => exact ⟨store, rfl, fun _ => rfl⟩
  | cons batch batches ih =>
    rw [List.flatMap_cons] at replayable slots above
    obtain ⟨apartHead, apartTail⟩ := List.forall_mem_cons.mp apart
    obtain ⟨slotsHead, slotsTail⟩ := List.forall_mem_append.mp slots
    obtain ⟨aboveHead, aboveTail⟩ := List.forall_mem_append.mp above
    obtain ⟨next, ran, applied, cursor⟩ := @applyBatch_writes _ _ _ batch.2 batch.1 store
      (replayable.sublist (List.sublist_append_left _ _)) apartHead slotsHead aboveHead
    have storedAcross := (List.pairwise_append.mp replayable.stored).2.2
    obtain ⟨final, delivered, views⟩ := @ih next
      (replayable.sublist (List.sublist_append_right _ _)) apartTail
      (fun write mem => applied.keeps_slot (slotsTail write mem))
      (fun write mem => cursor _ (aboveTail write mem) fun early mem' =>
        storedAcross early mem' write mem)
    have distinct : (batch.2.map Write.entry).Pairwise (·.1 ≠ ·.1) :=
      List.pairwise_map.mpr apartHead
    refine ⟨final, Fallible.bind_eq_ok.mpr ⟨next, ran, delivered⟩, fun key => ?_⟩
    rw [views key, applied.view_replay distinct, List.flatMap_cons, List.map_append, atKey_append,
      replay_append]

end Replay

section Snapshots

variable {sender : site.Sender}

omit [DecidableEq V] in
theorem Write.image {write : site.Write} {target : Option (Row V)}
    (before : ∀ row, target = some row → site.Image write.key row) {row : Row V}
    (after : write.change.apply target = some row) : site.Image write.key row := by
  have tells := write.tells
  cases change : write.change with
  | put image =>
    rw [change] at tells after
    cases after
    exact tells.2.1
  | remove =>
    rw [change] at after
    cases after
  | patch named source =>
    rw [change] at tells after
    obtain ⟨old, rfl, rfl⟩ := Option.map_eq_some_iff.mp after
    have image := before old rfl
    constructor
    · apply (key_eq_iff tells.keyed).mpr
      intro column mem
      exact if_pos (tells.keyNamed column mem)
    · unfold overlay
      split
      · next regionNamed => exact tells.owned regionNamed
      · exact image.owned
    · apply clip_eq_of_forall
      · exact fun _ _ => rfl
      · intro column outside
        unfold overlay
        rw [if_neg fun mem => outside (tells.known column mem), ← image.clipped]
        exact if_neg outside

/-- Every row the sender ever had is a row of the peer under its key. -/
theorem Sender.image {n : Nat} {key : List V} {row : Row V} (has : sender.rowsAt n key = some row) :
    site.Image key row := by
  unfold rowsAt at has
  have start := sender.images key
  generalize sender.initial key = target at has start
  rw [← List.map_take] at has
  generalize sender.history.take n = writes at has
  induction writes generalizing target with
  | nil => exact start row has
  | cons write writes ih =>
    by_cases here : write.key = key
    · subst here
      have head : atKey write.key ((write :: writes).map Write.entry) =
          write.change :: atKey write.key (writes.map Write.entry) := by
        simp [atKey, Write.entry]
      rw [head] at has
      exact ih _ (fun row => Write.image start) has
    · have head : atKey key ((write :: writes).map Write.entry) =
          atKey key (writes.map Write.entry) := by
        simp [atKey, Write.entry, here]
      rw [head] at has
      exact ih _ start has

/-- Every row is put under its key, chunk after chunk. -/
theorem applySnapshotChunks_rows {chunks : List (List site.Snapshot)}
    (once : chunks.flatten.Pairwise (·.key ≠ ·.key)) {tables : Tables V}
    (slots : ∀ s ∈ chunks.flatten, site.Slot s.key (tables site.tableRef s.key)) :
    ∃ next, chunks.foldlM (fun tables chunk => applySnapshotChunk site.repo site.server site.region
        site.table (chunk.map Snapshot.row) tables) tables = .ok next ∧
      site.Applied (tables site.tableRef) (next site.tableRef)
        (chunks.flatten.map fun s => (s.key, .put s.image)) := by
  induction chunks generalizing tables with
  | nil => exact ⟨tables, rfl, .nil _⟩
  | cons chunk chunks ih =>
    rw [List.flatten_cons] at once slots
    obtain ⟨onceHead, onceTail, across⟩ := List.pairwise_append.mp once
    obtain ⟨slotsHead, slotsTail⟩ := List.forall_mem_append.mp slots
    obtain ⟨middle, ran, first⟩ := applySnapshotChunk_rows onceHead slotsHead
    obtain ⟨next, others, second⟩ := ih onceTail fun s mem => first.keeps_slot (slotsTail s mem)
    refine ⟨next, Fallible.bind_eq_ok.mpr ⟨middle, ran, others⟩, ?_⟩
    rw [List.flatten_cons, List.map_append]
    apply first.append second
    intro c mem d mem'
    obtain ⟨s, inChunk, rfl⟩ := List.mem_map.mp mem
    obtain ⟨s', inChunks, rfl⟩ := List.mem_map.mp mem'
    exact across s inChunk s' inChunks

end Snapshots

namespace CatchUp

variable {c : site.CatchUp} {store : Store V}

theorem has_of_rowsAt {n : Nat} {key : List V} {row : Row V}
    (has : c.sender.rowsAt n key = some row) : c.sender.Has key := by
  by_contra never
  unfold Sender.Has at never
  push Not at never
  have quiet : atKey key ((c.sender.history.map Write.entry).take n) = [] := by
    apply atKey_of_absent
    intro entry mem
    obtain ⟨write, inHistory, rfl⟩ := List.mem_map.mp (List.mem_of_mem_take mem)
    exact never.2 write inHistory
  unfold Sender.rowsAt at has
  rw [quiet, never.1] at has
  cases has

/-- Rows under the sender's keys are in reach of its statements. -/
theorem slot_of_has (fresh : site.Fresh store) (reaches : c.Reaches store) {key : List V}
    (has : c.sender.Has key) : site.Slot key (store.tables site.tableRef key) :=
  ⟨fun row present => fresh.keyed key row present,
    fun row present => Or.inl (reaches.free key row has present)⟩

/-- A chunk's row is an image of the sender's row at its point. -/
def AsRead (c : site.CatchUp) (snapshot : site.Snapshot) : Prop :=
  c.sender.rowsAt (c.readAt snapshot.key) snapshot.key = some snapshot.image

theorem asRead_of_mem (valid : c.Valid) {entry : List V × SnapshotRow}
    (mem : entry ∈ c.chunks.flatten) :
    ∃ s : {s : site.Snapshot // c.AsRead s}, (s.1.key, s.1.row) = entry := by
  obtain ⟨object, row, payload, has, prints⟩ := valid.reads entry mem
  have image := Sender.image has
  have whole := prints.whole (fun _ => Iff.rfl) image.keyed image.owned
  refine ⟨⟨⟨entry.2, object, payload, entry.1, whole⟩, ?_⟩, rfl⟩
  have printsRow := prints.withRegion image.owned site.region_column
  change c.sender.rowsAt (c.readAt entry.1) entry.1 = some (site.read (site.withRegion object))
  rw [has, printsRow.read_eq_clip fun _ => Iff.rfl, image.clipped]

theorem exists_snapshots (valid : c.Valid) :
    ∃ chunks : List (List {s : site.Snapshot // c.AsRead s}),
      chunks.map (·.map fun s => (s.1.key, s.1.row)) = c.chunks := by
  apply Set.mem_range.mp
  rw [Set.range_list_map]
  intro chunk mem
  rw [Set.range_list_map]
  intro entry inChunk
  exact asRead_of_mem valid (List.mem_flatten_of_mem mem inChunk)

/-- The snapshot leaves every row as it was when it was read. -/
theorem snapshot_rows (valid : c.Valid) (fresh : site.Fresh store) (reaches : c.Reaches store) :
    ∃ tables, c.chunks.foldlM (fun tables chunk => applySnapshotChunk site.repo site.server
        site.region site.table (chunk.map (·.2)) tables) store.tables = .ok tables ∧
      (∀ key, c.sender.Has key → site.Slot key (tables site.tableRef key)) ∧
      ∀ key, site.view (tables site.tableRef key) = c.sender.rowsAt (c.readAt key) key := by
  obtain ⟨chunks, made⟩ := exists_snapshots valid
  have once := valid.once
  have covers := valid.covers
  rw [← made] at once covers ⊢
  rw [← List.map_flatten] at once covers
  rw [List.foldlM_map]
  have distinct : (chunks.map (·.map Subtype.val)).flatten.Pairwise (·.key ≠ ·.key) := by
    have keys := List.pairwise_map.mp once
    rw [← List.map_flatten]
    exact List.pairwise_map.mpr keys
  have slots : ∀ s ∈ (chunks.map (·.map Subtype.val)).flatten,
      site.Slot s.key (store.tables site.tableRef s.key) := by
    intro s mem
    rw [← List.map_flatten] at mem
    obtain ⟨read, _, rfl⟩ := List.mem_map.mp mem
    exact slot_of_has fresh reaches (has_of_rowsAt read.2)
  obtain ⟨tables, ran, applied⟩ := applySnapshotChunks_rows distinct slots
  refine ⟨tables, ?_, ?_, ?_⟩
  · rw [List.foldlM_map] at ran
    simp only [List.map_map] at ran ⊢
    exact ran
  · exact fun key has => applied.keeps_slot (slot_of_has fresh reaches has)
  · intro key
    cases has : c.sender.rowsAt (c.readAt key) key with
    | some row =>
      obtain ⟨entry, mem, rfl⟩ := covers key row has
      obtain ⟨s, inChunks, rfl⟩ := List.mem_map.mp mem
      have listed : (s.1.key, Change.put s.1.image) ∈
          (chunks.map (·.map Subtype.val)).flatten.map fun s => (s.key, .put s.image) := by
        rw [← List.map_flatten, List.map_map]
        exact List.mem_map_of_mem inChunks
      rw [applied.touched _ listed, ← has]
      exact s.2.symm
    | none =>
      rw [applied.untouched, fresh.unowned]
      intro d mem same
      rw [← List.map_flatten, List.map_map] at mem
      obtain ⟨s, _, rfl⟩ := List.mem_map.mp mem
      have read : c.sender.rowsAt (c.readAt key) key = some s.1.image := same ▸ s.2
      rw [has] at read
      cases read

/-- Snapshot rows read at any points, and then any suffix of the history that has what
follows them, leave exactly the sender's final rows. -/
theorem snapshot_then_replay_converges (valid : c.Valid) (fresh : site.Fresh store)
    (reaches : c.Reaches store) : c.Converges store := by
  obtain ⟨tables, ran, slots, views⟩ := snapshot_rows valid fresh reaches
  have sub : (c.batches.flatMap (·.2)).Sublist c.sender.history := by
    rw [valid.delivers]
    exact List.drop_sublist _ _
  have history : Replayable c.sender.history :=
    ⟨reaches.plain, reaches.named, valid.increases, reaches.stored⟩
  have above : ∀ write ∈ c.batches.flatMap (·.2),
      (site.cursorPosition store.cursors).Before write.event.position := by
    intro write mem
    unfold cursorPosition
    rw [fresh.cursor]
    exact zero_before (reaches.versions write (sub.subset mem))
      (key_ne_nil_of_validated write.valid)
  obtain ⟨final, delivered, replayed⟩ := @deliver_writes _ _ _
    ⟨tables, store.cursors⟩ _ (history.sublist sub) valid.apart
    (fun write mem => slots write.key (Or.inr ⟨write, sub.subset mem, rfl⟩)) above
  refine ⟨final, Fallible.bind_eq_ok.mpr ⟨tables, ran, delivered⟩, fun key => ?_⟩
  rw [replayed key, views key, valid.delivers, List.map_drop]
  apply replay_from
  intro i entry found here late
  rw [List.getElem?_map] at found
  obtain ⟨write, there, rfl⟩ := Option.map_eq_some_iff.mp found
  subst here
  exact valid.overlaps i write there late

end CatchUp

end Site

namespace Users

open Site

/-- The users table with other columns. -/
def siteOf (columns : List String) (key : "id" ∈ columns) (region : "region" ∈ columns) :
    Site String where
  repo := usersRepository
  server := textServer fun _ => columns
  table := "users"
  spec := usersSpec
  tableRef := "\"users\""
  region := "eu"
  configured := configured
  region_ne := region_ne
  field_ne := usersSpec_field_ne
  key_ne := usersSpec_key_ne
  key_column column mem := by
    rw [List.mem_singleton.mp mem]
    exact key
  region_column := region
  populate_region := rfl

variable {columns : List String} {key : "id" ∈ columns} {region : "region" ∈ columns}

theorem prints_read {object : Object} {named : List String}
    (only : ∀ column ∈ object.keys, column ∈ named) (given : ∀ column ∈ named, column ∈ object)
    (known : ∀ column ∈ named, column ∈ columns)
    (populates : populates (siteOf columns key region).server "\"users\"" object = true) :
    (siteOf columns key region).Prints object named ((siteOf columns key region).read object) := by
  constructor
  · exact fun column mem => only column (Std.ExtTreeMap.mem_keys.mpr mem)
  · intro column mem
    obtain ⟨raw, found⟩ := Option.isSome_iff_exists.mp
      (Std.ExtTreeMap.mem_iff_isSome_getElem?.mp (given column mem))
    refine ⟨raw, found, ?_⟩
    unfold Sql.populates at populates
    have read := List.all_eq_true.mp populates column (known column mem)
    simp only [found] at read
    obtain ⟨value, populated⟩ := Option.isSome_iff_exists.mp read
    change (siteOf columns key region).server.populate (siteOf columns key region).tableRef column
      raw = some value at populated
    have inTable : column ∈ (siteOf columns key region).server.columns
      (siteOf columns key region).tableRef := known column mem
    unfold Site.read populateRow
    rw [if_pos inTable, found, Option.bind_some, populated]
    rfl

theorem parts_userKey (id : String) :
    ∃ object row, primaryKeyPayload (userKey id) = some object ∧
      (siteOf columns key region).Prints object ["id"] row ∧
      (siteOf columns key region).key row = some [id] := by
  refine ⟨(∅ : Object).insert "id" (Json.quote id), fun _ => some id, rfl, ?_, rfl⟩
  constructor
  · intro column mem
    have same : "id" = column := by simpa using mem
    exact List.mem_singleton.mpr same.symm
  · intro column mem
    rw [List.mem_singleton.mp mem]
    exact ⟨_, Std.ExtTreeMap.getElem?_insert_self, populate_quote "id" id⟩

/-- What can be checked of a payload for the user with an id. -/
def Reads (columns named : List String) (key : "id" ∈ columns) (region : "region" ∈ columns)
    (id : String) (fields : Fields) : Prop :=
  (∀ column ∈ fields.keys, column ∈ named) ∧ (∀ column ∈ named, column ∈ fields) ∧
    (∀ column ∈ named, column ∈ columns) ∧ "id" ∈ named ∧
    populates (siteOf columns key region).server "\"users\"" fields = true ∧
    (siteOf columns key region).key ((siteOf columns key region).read fields) = some [id] ∧
    ("region" ∈ named → (siteOf columns key region).read fields "region" = some "eu")

instance {columns named : List String} {key : "id" ∈ columns} {region : "region" ∈ columns}
    {id : String} {fields : Fields} : Decidable (Reads columns named key region id fields) :=
  inferInstanceAs (Decidable (_ ∧ _))

def event (operation : ReplicationOperation) (version : Int) (id : String) (fields : Fields) :
    ReplicationEvent :=
  ⟨"eu", "users", "event", userKey id, operation, version, fields⟩

theorem image_read {id : String} {fields : Fields} (reads : Reads columns columns key region id fields) :
    (siteOf columns key region).Image [id] ((siteOf columns key region).read fields) := by
  obtain ⟨_, _, _, _, _, keyed, owned⟩ := reads
  refine ⟨keyed, owned region, clip_eq_of_forall (fun _ _ => rfl) ?_⟩
  exact fun column outside => read_outside fields outside

/-- The user's row is written as the fields give it. -/
def put (version : Int) (id : String) (fields : Fields)
    (reads : Reads columns columns key region id fields) : (siteOf columns key region).Write where
  event := event .upsert version id fields
  key := [id]
  change := .put ((siteOf columns key region).read fields)
  table := rfl
  peerRegion := rfl
  valid := rfl
  parts := parts_userKey id
  tells := by
    have image := image_read reads
    obtain ⟨only, given, known, _, populates, _⟩ := reads
    exact ⟨Or.inr rfl, image, prints_read only given known populates⟩

/-- The named columns of the user's row are written as the fields give them. -/
def patch (version : Int) (id : String) (named : List String) (fields : Fields)
    (reads : Reads columns named key region id fields) : (siteOf columns key region).Write where
  event := event .update version id fields
  key := [id]
  change := .patch named ((siteOf columns key region).read fields)
  table := rfl
  peerRegion := rfl
  valid := rfl
  parts := parts_userKey id
  tells := by
    obtain ⟨only, given, known, keyNamed, populates, keyed, owned⟩ := reads
    refine ⟨rfl, known, fun column mem => ?_, keyed, owned, prints_read only given known populates⟩
    rw [List.mem_singleton.mp mem]
    exact keyNamed

def remove (version : Int) (id : String) : (siteOf columns key region).Write where
  event := event .delete version id ∅
  key := [id]
  change := .remove
  table := rfl
  peerRegion := rfl
  valid := rfl
  parts := parts_userKey id
  tells := rfl

/-- A replay of a whole history without a snapshot, every row being read before it. -/
def replayOnly {site : Site String} (batches : List (List site.Write)) : site.CatchUp where
  sender := ⟨fun _ => none, nofun, batches.flatten⟩
  readAt _ := 0
  chunks := []
  start := 0
  batches := batches.map (BatchKind.transactionBatch, ·)

theorem replayOnly_valid {site : Site String} {batches : List (List site.Write)}
    (increases : batches.flatten.Pairwise fun w w' => w.event.position.Before w'.event.position)
    (apart : ∀ batch ∈ batches, batch.Pairwise (·.key ≠ ·.key)) : (replayOnly batches).Valid := by
  refine ⟨increases, .nil, nofun, nofun, fun _ _ _ _ => Nat.zero_le _, ?_, ?_⟩
  · change (batches.map _).flatMap _ = batches.flatten
    rw [List.flatMap_map, List.flatMap_id']
  · intro batch mem
    obtain ⟨writes, inBatches, rfl⟩ := List.mem_map.mp mem
    exact apart writes inBatches

theorem not_converges {site : Site String} {c : site.CatchUp} {store : Store String}
    (key : List String) (column : String)
    (differ : (c.run store).toOption.map (fun final =>
      (site.view (final.tables site.tableRef key)).bind (· column)) ≠
        some ((c.sender.finalRows key).bind (· column))) : ¬ c.Converges store := by
  rintro ⟨final, ran, same⟩
  apply differ
  rw [ran, ← same key]
  rfl

/-- A receiver with at most one row and without cursors. -/
def receiver (entry : Option (String × String × String)) : Store String :=
  ⟨fun _ => rows entry, fun _ _ => none⟩

theorem fresh_receiver {entry : Option (String × String × String)}
    (other : ∀ e ∈ entry, e.2.2 ≠ "eu") :
    (siteOf columns key region).Fresh (receiver entry) := by
  refine ⟨keyed_rows entry, fun key => ?_, rfl⟩
  cases entry with
  | none => rfl
  | some e =>
    change Site.view _ (if key = [e.1] then some (row e.1 e.2.1 e.2.2) else none) = none
    split
    · exact view_of_unowned fun same => other e rfl (Option.some.inj same)
    · rfl

abbrev users : Site String := siteOf ["id", "name", "region"] (by decide) (by decide)

/-- A table with a comma in the name of a column. -/
abbrev tagged : Site String := siteOf ["a", "a,b", "b", "id", "region"] (by decide) (by decide)

def fields (entries : List (String × String)) : Fields :=
  .ofList (entries.map fun entry => (entry.1, Json.quote entry.2))

def user (id name : String) : Fields := fields [("id", id), ("name", name), ("region", "eu")]

def tags (id a ab b : String) : Fields :=
  fields [("a", a), ("a,b", ab), ("b", b), ("id", id), ("region", "eu")]

/-- The history can be replayed to the receiver, and does not end in the sender's rows. -/
def Diverges {site : Site String} (batches : List (List site.Write)) (store : Store String) : Prop :=
  (replayOnly batches).Valid ∧ site.Fresh store ∧ ¬ (replayOnly batches).Converges store

def insertion : List (List users.Write) := [[put 1 "1" (user "1" "ann") (by decide)]]

def early : List (List users.Write) := [[put (-1) "1" (user "1" "ann") (by decide)]]

def keyOnly : List (List users.Write) :=
  [[put 1 "1" (user "1" "ann") (by decide)],
    [patch 2 "1" ["id"] (fields [("id", "1")]) (by decide)]]

def joined : List (List tagged.Write) :=
  [[put 1 "1" (tags "1" "x" "x" "x") (by decide), put 2 "2" (tags "2" "x" "x" "x") (by decide)],
    [patch 3 "1" ["a", "b", "id"] (fields [("a", "y"), ("b", "y"), ("id", "1")]) (by decide),
      patch 4 "2" ["a,b", "id"] (fields [("a,b", "y"), ("id", "2")]) (by decide)]]

def reordered : List (List users.Write) :=
  [[put 1 "\u2028" (user "\u2028" "ann") (by decide)], [put 1 "a" (user "a" "bob") (by decide)]]

/-- User 1 is read after its second write and user 2 before its deletion; the replay
starts at the first write. -/
def catchUp : users.CatchUp where
  sender := ⟨fun _ => none, nofun, [put 1 "1" (user "1" "ann") (by decide),
    put 2 "1" (user "1" "bob") (by decide),
    patch 3 "1" ["id", "name"] (fields [("id", "1"), ("name", "cyd")]) (by decide),
    put 4 "2" (user "2" "dan") (by decide), remove 5 "2"]⟩
  readAt key := if key = ["1"] then 2 else 4
  chunks := [[(["1"], ⟨userKey "1", some (user "1" "bob"), 0⟩)],
    [(["2"], ⟨userKey "2", some (user "2" "dan"), 0⟩)]]
  start := 0
  batches := [(.eventBatch, [put 1 "1" (user "1" "ann") (by decide)]),
    (.eventBatch, [put 2 "1" (user "1" "bob") (by decide)]),
    (.transactionBatch, [patch 3 "1" ["id", "name"] (fields [("id", "1"), ("name", "cyd")]) (by decide),
      put 4 "2" (user "2" "dan") (by decide)]),
    (.transactionBatch, [remove 5 "2"])]

theorem catchUp_valid : catchUp.Valid := by
  refine ⟨by decide, by decide, ?_, ?_, fun _ _ _ _ => Nat.zero_le _, rfl, by decide⟩
  · intro entry mem
    have listed : entry = (["1"], ⟨userKey "1", some (user "1" "bob"), 0⟩) ∨
        entry = (["2"], ⟨userKey "2", some (user "2" "dan"), 0⟩) := by
      simpa [catchUp] using mem
    cases listed with
    | inl first =>
      subst first
      exact ⟨_, _, rfl, rfl, prints_read (by decide) (by decide) (by decide) (by decide)⟩
    | inr second =>
      subst second
      exact ⟨_, _, rfl, rfl, prints_read (by decide) (by decide) (by decide) (by decide)⟩
  · intro key row has
    by_cases first : key = ["1"]
    · exact ⟨_, List.mem_cons_self, first.symm⟩
    · by_cases second : key = ["2"]
      · exact ⟨_, List.mem_cons_of_mem _ List.mem_cons_self, second.symm⟩
      · -- nothing was ever written under another key
        have absent : atKey key ((catchUp.sender.history.map Write.entry).take 4) = [] := by
          apply atKey_of_absent
          intro entry mem same
          have := List.mem_of_mem_take mem
          simp only [catchUp, List.map_cons, List.map_nil, List.mem_cons, List.not_mem_nil,
            or_false] at this
          rcases this with rfl | rfl | rfl | rfl | rfl
          all_goals first
            | exact first same.symm
            | exact second same.symm
        have never : catchUp.sender.rowsAt (catchUp.readAt key) key = none := by
          unfold Sender.rowsAt
          rw [show catchUp.readAt key = 4 from if_neg first, absent]
          rfl
        rw [never] at has
        cases has

end Users

open Users in
/-- Histories whose replay does not end in the sender's rows: a key another region holds,
a version below the empty cursor, an update of no column but the key, two updates whose
column names join to the same text, and keys of one version that JSONB reorders. -/
theorem histories_that_do_not_converge :
    Diverges insertion (receiver (some ("1", "bob", "us"))) ∧
    Diverges early (receiver none) ∧
    Diverges keyOnly (receiver none) ∧
    Diverges joined (receiver none) ∧
    Diverges reordered (receiver none) := by
  refine ⟨⟨replayOnly_valid (by decide) (by decide), fresh_receiver (by decide),
      not_converges ["1"] "name" (by decide)⟩,
    ⟨replayOnly_valid (by decide) (by decide), fresh_receiver (by decide),
      not_converges ["1"] "name" (by decide)⟩,
    ⟨replayOnly_valid (by decide) (by decide), fresh_receiver (by decide),
      not_converges ["1"] "name" (by decide)⟩,
    ⟨replayOnly_valid (by decide) (by decide), fresh_receiver (by decide),
      not_converges ["2"] "a,b" (by decide)⟩,
    ⟨replayOnly_valid (by decide) (by decide), fresh_receiver (by decide),
      not_converges ["a"] "name" (by decide)⟩⟩

open Users in
theorem snapshot_then_replay_converges_users :
    catchUp.Valid ∧ users.Fresh (receiver none) ∧ catchUp.Converges (receiver none) := by
  have fresh : users.Fresh (receiver none) := fresh_receiver (by decide)
  refine ⟨catchUp_valid, fresh, Site.CatchUp.snapshot_then_replay_converges catchUp_valid fresh ?_⟩
  refine ⟨fun _ _ _ => nofun, by decide, ?_, by decide, by decide⟩
  intro write mem named row patched
  simp only [catchUp, List.mem_cons, List.not_mem_nil, or_false] at mem
  rcases mem with rfl | rfl | rfl | rfl | rfl
  all_goals first
    | cases patched; exact ⟨"name", by decide, by decide⟩
    | cases patched

end Transmogr

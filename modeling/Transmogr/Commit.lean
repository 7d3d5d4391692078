import Transmogr.Apply

/-! The receiver: `applyBatch` of the replication service and the transaction
it runs, `CommitStateAppliedTransaction`. -/
namespace Transmogr

open Sql

/-- The `peer_cursors` table by peer region and table name. -/
abbrev Cursors := String → String → Option StateCursor

/-- The receiver's database: application rows and cursors. -/
structure Store (V : Type) where
  tables : Tables V
  cursors : Cursors

/-- A receiver without rows and cursors. -/
def Store.empty (V : Type) : Store V := ⟨fun _ _ => none, fun _ _ => none⟩

/-- The row `getStateCursorForUpdate` inserts when there is none. -/
def emptyCursor (peerRegion table : String) : StateCursor := ⟨peerRegion, table, "", 0, []⟩

def ensureCursor (cursors : Cursors) (peerRegion table : String) : Cursors := fun r t =>
  if r = peerRegion ∧ t = table then some ((cursors r t).getD (emptyCursor r t)) else cursors r t

def setCursor (cursors : Cursors) (cursor : StateCursor) : Cursors := fun r t =>
  if r = cursor.peerRegion ∧ t = cursor.table then some cursor else cursors r t

/-- A key after it went through the `last_primary_key` JSONB column. -/
def storedKey (key : PrimaryKey) : PrimaryKey :=
  key.map fun part => { part with value := Json.jsonb part.value }

def saveStateCursor (cursors : Cursors) (cursor : StateCursor) : Cursors :=
  setCursor cursors { cursor with lastPrimaryKey := storedKey cursor.lastPrimaryKey }

/-- The cursor a transaction sees for a pair it has locked. -/
def readCursor (cursors : Cursors) (peerRegion table : String) : StateCursor :=
  (cursors peerRegion table).getD (emptyCursor peerRegion table)

def ReplicationEvent.cursor (event : ReplicationEvent) : StateCursor :=
  ⟨event.peerRegion, event.table, event.eventID, event.version, event.primaryKey⟩

def lockCursors (cursors : Cursors) (events : List ReplicationEvent) : Cursors :=
  events.foldl (fun cursors event => ensureCursor cursors event.peerRegion event.table) cursors

def stale (cursors : Cursors) (event : ReplicationEvent) : Bool :=
  isStaleCursorPosition event.version event.primaryKey
    (readCursor cursors event.peerRegion event.table)

/-- The events to apply, with the running cursors in memory. -/
def filterStale (running : Cursors) : List ReplicationEvent → List ReplicationEvent
  | [] => []
  | event :: events =>
    if stale running event then filterStale running events
    else event :: filterStale (setCursor running event.cursor) events

/-- The cursors in memory after the filter. -/
def runningCursors (running : Cursors) (accepted : List ReplicationEvent) : Cursors :=
  accepted.foldl (fun cursors event => setCursor cursors event.cursor) running

/-- Saving every accepted cursor in order leaves the last one of each pair,
which is the one the source saves. -/
def saveFinalCursors (cursors : Cursors) (accepted : List ReplicationEvent) : Cursors :=
  accepted.foldl (fun cursors event => saveStateCursor cursors event.cursor) cursors

variable {V : Type} [DecidableEq V] (repo : Repository) (server : Server V)

/-- One database transaction: an error leaves the store as it was. -/
def commitStateAppliedTransaction (mode : ReplicationApplyMode) (events : List ReplicationEvent)
    (store : Store V) : Except String (Store V) := do
  let locked := lockCursors store.cursors events
  let toApply := filterStale locked events
  let tables ← applyEventsBatch repo server mode toApply store.tables
  return ⟨tables, saveFinalCursors locked toApply⟩

def validateEvent (event : ReplicationEvent) : Except String Unit :=
  if event.peerRegion = "" then .error "event peer region is required"
  else if event.table = "" then .error "event table is required"
  else if event.eventID = "" then .error "event id is required"
  else if event.primaryKey = [] then .error "event primary key is required"
  else .ok ()

def defaultOperation (event : ReplicationEvent) : ReplicationEvent :=
  if event.operation = .unset then { event with operation := .upsert } else event

/-- The events the apply mode lets through, or the first validation error. -/
def prepareEvents (mode : ReplicationApplyMode) :
    List ReplicationEvent → Except String (List ReplicationEvent)
  | [] => .ok []
  | event :: events => do
    validateEvent event
    let rest ← prepareEvents mode events
    let event := defaultOperation event
    return if applyAllowed mode event.operation then event :: rest else rest

def compareCursorOrderedEvents (left right : ReplicationEvent) : Ordering :=
  (compare left.peerRegion right.peerRegion).then ((compare left.table right.table).then
    ((compare left.version right.version).then
      (comparePrimaryKeys left.primaryKey right.primaryKey)))

/-- `slices.SortStableFunc(prepared, compareCursorOrderedEvents)` -/
def sortForCursor (events : List ReplicationEvent) : List ReplicationEvent :=
  events.insertionSort fun left right => (compareCursorOrderedEvents left right).isLE = true

/-- Polling batches and CDC transactions. -/
inductive BatchKind where
  | eventBatch
  | transactionBatch
  deriving DecidableEq, Repr

/-- Polling batches are sorted first; CDC transactions keep the WAL order. -/
def commitOrder (kind : BatchKind) (prepared : List ReplicationEvent) : List ReplicationEvent :=
  match kind with
  | .eventBatch => sortForCursor prepared
  | .transactionBatch => prepared

def applyBatch (mode : ReplicationApplyMode) (kind : BatchKind) (events : List ReplicationEvent)
    (store : Store V) : Except String (Store V) := do
  let prepared ← prepareEvents mode events
  if prepared.isEmpty then return store
  commitStateAppliedTransaction repo server mode (commitOrder kind prepared) store

def applyEventBatch (mode : ReplicationApplyMode) (events : List ReplicationEvent)
    (store : Store V) : Except String (Store V) :=
  applyBatch repo server mode .eventBatch events store

def applyTransactionBatch (mode : ReplicationApplyMode) (events : List ReplicationEvent)
    (store : Store V) : Except String (Store V) :=
  applyBatch repo server mode .transactionBatch events store

structure Batch where
  kind : BatchKind
  events : List ReplicationEvent

def deliver (mode : ReplicationApplyMode) (batches : List Batch) (store : Store V) :
    Except String (Store V) :=
  batches.foldlM (fun store batch => applyBatch repo server mode batch.kind batch.events store) store

section Cursors

variable {cursors : Cursors} {event other : ReplicationEvent} {events : List ReplicationEvent}

/-- Every stored cursor has a key whose values have their declared types. -/
def TypedCursors (cursors : Cursors) : Prop :=
  ∀ r t cursor, cursors r t = some cursor → TypedKey cursor.lastPrimaryKey

def ReplicationEvent.Typed (event : ReplicationEvent) : Prop := TypedKey event.primaryKey

theorem PrimaryKeyPart.Typed.stored {part : PrimaryKeyPart} (typed : part.Typed) :
    PrimaryKeyPart.Typed { part with value := Json.jsonb part.value } := by
  obtain ⟨column, type, value⟩ := part
  cases type with
  | integer =>
    have plain : Json.jsonb value = value := Json.jsonb_of_not_string fun rest eq => by
      simp [PrimaryKeyPart.Typed, eq, Json.unmarshalInt64_string] at typed
    simpa only [PrimaryKeyPart.Typed, plain] using typed
  | boolean =>
    have plain : Json.jsonb value = value := Json.jsonb_of_not_string fun rest eq => by
      simp [PrimaryKeyPart.Typed, eq, Json.unmarshalBool_string] at typed
    simpa only [PrimaryKeyPart.Typed, plain] using typed
  | unspecified => exact trivial
  | string => exact trivial

theorem TypedKey.stored {key : PrimaryKey} (typed : TypedKey key) : TypedKey (storedKey key) := by
  intro part mem
  obtain ⟨original, memOriginal, rfl⟩ := List.mem_map.mp mem
  exact (typed original memOriginal).stored

theorem stale_iff :
    stale cursors event = true ↔
      ¬ (readCursor cursors event.peerRegion event.table).position.Before event.position := by
  rw [stale, isStaleCursorPosition_eq, Bool.not_eq_true', decide_eq_false_iff_not]
  rfl

theorem not_stale_iff :
    stale cursors event = false ↔
      (readCursor cursors event.peerRegion event.table).position.Before event.position := by
  rw [← Bool.not_eq_true, stale_iff, not_not]

theorem TypedCursors.read (typed : TypedCursors cursors) (r t : String) :
    (readCursor cursors r t).position.Typed := by
  rw [readCursor]
  cases stored : cursors r t with
  | none => intro part mem; cases mem
  | some cursor => exact typed r t cursor stored

theorem TypedCursors.set (typed : TypedCursors cursors) (eventTyped : event.Typed) :
    TypedCursors (setCursor cursors event.cursor) := by
  intro r t cursor stored
  rw [setCursor] at stored
  split at stored
  · cases stored; exact eventTyped
  · exact typed r t cursor stored

theorem readCursor_set_same (cursors : Cursors) (event : ReplicationEvent) :
    readCursor (setCursor cursors event.cursor) event.peerRegion event.table =
      event.cursor := by
  simp [readCursor, setCursor, ReplicationEvent.cursor]

theorem readCursor_set_other {r t : String} (differ : ¬ (r = event.peerRegion ∧ t = event.table)) :
    readCursor (setCursor cursors event.cursor) r t = readCursor cursors r t := by
  have differ : ¬ (r = event.cursor.peerRegion ∧ t = event.cursor.table) := differ
  simp [readCursor, setCursor, differ]

theorem stale_set_self : stale (setCursor cursors event.cursor) event = true := by
  rw [stale_iff, readCursor_set_same]
  exact Position.not_before_self _

/-- An accepted event moves its cursor forward, so what was stale stays stale. -/
theorem stale_set (typed : TypedCursors cursors) (otherTyped : other.Typed)
    (eventTyped : event.Typed) (accepted : stale cursors event = false)
    (old : stale cursors other = true) :
    stale (setCursor cursors event.cursor) other = true := by
  rw [stale_iff] at old ⊢
  by_cases same : other.peerRegion = event.peerRegion ∧ other.table = event.table
  · rw [same.1, same.2] at old ⊢
    rw [readCursor_set_same]
    intro before
    rw [not_stale_iff] at accepted
    have eventTyped : event.position.Typed := eventTyped
    exact old (accepted.trans (typed.read _ _) eventTyped otherTyped before)
  · rw [readCursor_set_other same]
    exact old

theorem filterStale_of_all_stale (all : ∀ event ∈ events, stale cursors event = true) :
    filterStale cursors events = [] := by
  induction events with
  | nil => rfl
  | cons event events ih =>
    rw [filterStale, if_pos (all event List.mem_cons_self)]
    exact ih fun e mem => all e (List.mem_cons_of_mem _ mem)

/-- After the filter every event of the batch is behind its cursor, and so is
everything that was before. -/
theorem stale_after_filter (typed : TypedCursors cursors)
    (eventsTyped : ∀ event ∈ events, event.Typed) (otherTyped : other.Typed)
    (behind : other ∈ events ∨ stale cursors other = true) :
    stale (runningCursors cursors (filterStale cursors events)) other = true := by
  induction events generalizing cursors with
  | nil => exact behind.resolve_left List.not_mem_nil
  | cons event events ih =>
    have headTyped := eventsTyped event List.mem_cons_self
    have tailTyped : ∀ e ∈ events, e.Typed := fun e mem =>
      eventsTyped e (List.mem_cons_of_mem _ mem)
    rw [filterStale]
    split
    · next skipped =>
      refine ih typed tailTyped ?_
      rcases behind with mem | old
      · rcases List.mem_cons.mp mem with rfl | mem
        · exact Or.inr skipped
        · exact Or.inl mem
      · exact Or.inr old
    · next accepted =>
      have accepted : stale cursors event = false := Bool.eq_false_iff.mpr accepted
      refine ih (typed.set headTyped) tailTyped ?_
      rcases behind with mem | old
      · rcases List.mem_cons.mp mem with rfl | mem
        · exact Or.inr stale_set_self
        · exact Or.inl mem
      · exact Or.inr (stale_set typed otherTyped headTyped accepted old)

theorem readCursor_ensure (cursors : Cursors) (r t r' t' : String) :
    readCursor (ensureCursor cursors r t) r' t' = readCursor cursors r' t' := by
  by_cases same : r' = r ∧ t' = t <;> simp [readCursor, ensureCursor, same]

theorem readCursor_lock (cursors : Cursors) (events : List ReplicationEvent) (r t : String) :
    readCursor (lockCursors cursors events) r t = readCursor cursors r t := by
  induction events generalizing cursors with
  | nil => rfl
  | cons head events ih => exact (ih _).trans (readCursor_ensure ..)

theorem stale_lock (cursors : Cursors) (events : List ReplicationEvent) (event : ReplicationEvent) :
    stale (lockCursors cursors events) event = stale cursors event := by
  rw [stale, readCursor_lock, stale]

theorem TypedCursors.ensure (typed : TypedCursors cursors) (r t : String) :
    TypedCursors (ensureCursor cursors r t) := by
  intro r' t' cursor stored
  rw [ensureCursor] at stored
  split at stored
  · cases stored; exact typed.read r' t'
  · exact typed r' t' cursor stored

theorem TypedCursors.lock (typed : TypedCursors cursors) (events : List ReplicationEvent) :
    TypedCursors (lockCursors cursors events) := by
  induction events generalizing cursors with
  | nil => exact typed
  | cons event events ih => exact ih (typed.ensure _ _)

theorem ensureCursor_of_isSome {r t : String} (stored : (cursors r t).isSome) :
    ensureCursor cursors r t = cursors := by
  obtain ⟨cursor, stored⟩ := Option.isSome_iff_exists.mp stored
  funext r' t'
  rw [ensureCursor]
  split
  · next same => rw [same.1, same.2, stored]; rfl
  · rfl

theorem lockCursors_of_isSome
    (stored : ∀ event ∈ events, (cursors event.peerRegion event.table).isSome) :
    lockCursors cursors events = cursors := by
  induction events with
  | nil => rfl
  | cons event events ih =>
    rw [lockCursors, List.foldl_cons, ensureCursor_of_isSome (stored event List.mem_cons_self)]
    exact ih fun e mem => stored e (List.mem_cons_of_mem _ mem)

theorem isSome_ensure {r t r' t' : String} (stored : (cursors r' t').isSome ∨ r' = r ∧ t' = t) :
    (ensureCursor cursors r t r' t').isSome := by
  rw [ensureCursor]
  split
  · rfl
  · next differ => exact stored.resolve_right differ

theorem isSome_lock {r t : String}
    (stored : (cursors r t).isSome ∨ ∃ event ∈ events, r = event.peerRegion ∧ t = event.table) :
    (lockCursors cursors events r t).isSome := by
  induction events generalizing cursors with
  | nil =>
    rcases stored with stored | ⟨_, mem, _⟩
    · exact stored
    · cases mem
  | cons event events ih =>
    refine ih ?_
    rcases stored with stored | ⟨e, mem, same⟩
    · exact Or.inl (isSome_ensure (Or.inl stored))
    · rcases List.mem_cons.mp mem with rfl | mem
      · exact Or.inl (isSome_ensure (Or.inr same))
      · exact Or.inr ⟨e, mem, same⟩

theorem isSome_saveFinal {r t : String} (stored : (cursors r t).isSome) :
    (saveFinalCursors cursors events r t).isSome := by
  induction events generalizing cursors with
  | nil => exact stored
  | cons event events ih =>
    refine ih ?_
    simp only [saveStateCursor, setCursor]
    split
    · rfl
    · exact stored

/-- The store returns the key of the event's cursor as it was given. -/
def ReplicationEvent.Kept (event : ReplicationEvent) : Prop :=
  storedKey event.primaryKey = event.primaryKey

theorem saveFinalCursors_eq (kept : ∀ event ∈ events, event.Kept) :
    saveFinalCursors cursors events = runningCursors cursors events := by
  induction events generalizing cursors with
  | nil => rfl
  | cons event events ih =>
    have saved : saveStateCursor cursors event.cursor = setCursor cursors event.cursor := by
      rw [saveStateCursor]
      congr
      exact kept event List.mem_cons_self
    rw [saveFinalCursors, List.foldl_cons, saved]
    exact ih fun e mem => kept e (List.mem_cons_of_mem _ mem)

theorem filterStale_sublist (cursors : Cursors) (events : List ReplicationEvent) :
    (filterStale cursors events).Sublist events := by
  induction events generalizing cursors with
  | nil => exact .slnil
  | cons event events ih =>
    rw [filterStale]
    split
    · exact (ih _).cons _
    · exact (ih _).cons_cons _

theorem TypedCursors.saveFinal (typed : TypedCursors cursors)
    (eventsTyped : ∀ event ∈ events, event.Typed) : TypedCursors (saveFinalCursors cursors events) := by
  induction events generalizing cursors with
  | nil => exact typed
  | cons event events ih =>
    refine ih ?_ fun e mem => eventsTyped e (List.mem_cons_of_mem _ mem)
    intro r t cursor stored
    simp only [saveStateCursor, setCursor] at stored
    split at stored
    · cases stored
      exact TypedKey.stored (eventsTyped event List.mem_cons_self)
    · exact typed r t cursor stored

theorem saveFinalCursors_filter (kept : ∀ event ∈ events, event.Kept) (running : Cursors) :
    saveFinalCursors cursors (filterStale running events) =
      runningCursors cursors (filterStale running events) :=
  saveFinalCursors_eq fun e mem => kept e ((filterStale_sublist running events).subset mem)

/-- The receiver is done with an event: its cursor row exists and has passed it. -/
structure Settled (cursors : Cursors) (event : ReplicationEvent) : Prop where
  stored : (cursors event.peerRegion event.table).isSome
  passed : stale cursors event = true

end Cursors

section Transactions

variable {repo server} {mode : ReplicationApplyMode} {events prepared : List ReplicationEvent}
  {store store' : Store V} {event : ReplicationEvent}

/-- A successful transaction applied the events the filter kept and saved their
cursors. -/
theorem commit_eq_ok :
    commitStateAppliedTransaction repo server mode events store = .ok store' ↔
      ∃ tables, applyEventsBatch repo server mode
          (filterStale (lockCursors store.cursors events) events) store.tables = .ok tables ∧
        store' = ⟨tables, saveFinalCursors (lockCursors store.cursors events)
          (filterStale (lockCursors store.cursors events) events)⟩ := by
  rw [commitStateAppliedTransaction, Fallible.bind_eq_ok]
  constructor
  · rintro ⟨tables, applied, eq⟩
    cases eq
    exact ⟨tables, applied, rfl⟩
  · rintro ⟨tables, applied, rfl⟩
    exact ⟨tables, applied, rfl⟩

theorem commit_typed (typed : TypedCursors store.cursors) (eventsTyped : ∀ e ∈ events, e.Typed)
    (ok : commitStateAppliedTransaction repo server mode events store = .ok store') :
    TypedCursors store'.cursors := by
  obtain ⟨tables, _, rfl⟩ := commit_eq_ok.mp ok
  exact (typed.lock events).saveFinal fun e mem =>
    eventsTyped e ((filterStale_sublist _ events).subset mem)

/-- The events of a committed batch are settled, and settled events stay so. -/
theorem commit_settles (typed : TypedCursors store.cursors) (eventsTyped : ∀ e ∈ events, e.Typed)
    (kept : ∀ e ∈ events, e.Kept)
    (ok : commitStateAppliedTransaction repo server mode events store = .ok store')
    (eventTyped : event.Typed) (behind : event ∈ events ∨ Settled store.cursors event) :
    Settled store'.cursors event := by
  obtain ⟨tables, _, rfl⟩ := commit_eq_ok.mp ok
  constructor
  · refine isSome_saveFinal (isSome_lock ?_)
    rcases behind with mem | settled
    · exact Or.inr ⟨event, mem, rfl, rfl⟩
    · exact Or.inl settled.stored
  · simp only [saveFinalCursors_filter kept]
    refine stale_after_filter (typed.lock events) eventsTyped eventTyped ?_
    rcases behind with mem | settled
    · exact Or.inl mem
    · exact Or.inr (by rw [stale_lock]; exact settled.passed)

/-- Redelivering settled events changes nothing. -/
theorem commit_of_settled (settled : ∀ e ∈ events, Settled store.cursors e) :
    commitStateAppliedTransaction repo server mode events store = .ok store := by
  refine commit_eq_ok.mpr ?_
  rw [lockCursors_of_isSome fun e mem => (settled e mem).stored,
    filterStale_of_all_stale fun e mem => (settled e mem).passed]
  exact ⟨store.tables, rfl, rfl⟩

theorem mem_commitOrder {kind : BatchKind} : event ∈ commitOrder kind prepared ↔ event ∈ prepared := by
  cases kind with
  | eventBatch => exact (List.perm_insertionSort _ prepared).mem_iff
  | transactionBatch => exact Iff.rfl

/-- A batch without events the mode allows leaves the store alone; any other is
one transaction over its allowed events. -/
theorem applyBatch_eq_ok {kind : BatchKind} :
    applyBatch repo server mode kind events store = .ok store' ↔
      ∃ prepared, prepareEvents mode events = .ok prepared ∧
        if prepared.isEmpty then store' = store
        else commitStateAppliedTransaction repo server mode (commitOrder kind prepared) store =
          .ok store' := by
  rw [applyBatch, Fallible.bind_eq_ok]
  refine exists_congr fun prepared => and_congr_right fun _ => ?_
  by_cases empty : prepared.isEmpty
  · simp only [empty, if_true]
    exact ⟨fun h => by cases h; rfl, fun h => by rw [h]; rfl⟩
  · simp only [empty]
    exact Iff.rfl

/-- The allowed events are events of the batch, up to the default operation. -/
theorem prepareEvents_mem (ok : prepareEvents mode events = .ok prepared) (mem : event ∈ prepared) :
    ∃ e ∈ events, event = defaultOperation e := by
  induction events generalizing prepared with
  | nil => cases ok; cases mem
  | cons head events ih =>
    rw [prepareEvents] at ok
    obtain ⟨_, _, ok⟩ := Fallible.bind_eq_ok.mp ok
    obtain ⟨rest, restOk, ok⟩ := Fallible.bind_eq_ok.mp ok
    have later : event ∈ rest → ∃ e ∈ head :: events, event = defaultOperation e := fun mem =>
      (ih restOk mem).imp fun e found => ⟨List.mem_cons_of_mem _ found.1, found.2⟩
    cases ok
    split at mem
    · rcases List.mem_cons.mp mem with rfl | mem
      · exact ⟨head, List.mem_cons_self, rfl⟩
      · exact later mem
    · exact later mem

theorem prepareEvents_validated (ok : prepareEvents mode events = .ok prepared) :
    ∀ e ∈ events, validateEvent e = .ok () := by
  induction events generalizing prepared with
  | nil => intro e mem; cases mem
  | cons head events ih =>
    rw [prepareEvents] at ok
    obtain ⟨_, valid, ok⟩ := Fallible.bind_eq_ok.mp ok
    obtain ⟨rest, restOk, _⟩ := Fallible.bind_eq_ok.mp ok
    intro e mem
    rcases List.mem_cons.mp mem with rfl | mem
    · exact valid
    · exact ih restOk e mem

theorem key_ne_nil_of_validated (ok : validateEvent event = .ok ()) : event.primaryKey ≠ [] := by
  intro empty
  rw [validateEvent, if_pos empty] at ok
  split_ifs at ok

theorem defaultOperation_primaryKey (e : ReplicationEvent) :
    (defaultOperation e).primaryKey = e.primaryKey := by
  rw [defaultOperation]
  split <;> rfl

theorem prepareEvents_keys {P : PrimaryKey → Prop} (all : ∀ e ∈ events, P e.primaryKey)
    (ok : prepareEvents mode events = .ok prepared) : ∀ e ∈ prepared, P e.primaryKey := by
  intro e mem
  obtain ⟨original, memOriginal, rfl⟩ := prepareEvents_mem ok mem
  rw [defaultOperation_primaryKey]
  exact all original memOriginal

theorem deliver_append {first second : List Batch} :
    deliver repo server mode (first ++ second) store = .ok store' ↔
      ∃ mid, deliver repo server mode first store = .ok mid ∧
        deliver repo server mode second mid = .ok store' := by
  rw [deliver, List.foldlM_append, Fallible.bind_eq_ok]
  rfl

end Transactions

end Transmogr

import Transmogr.Machine
import Transmogr.Pipeline
import Transmogr.Receiving

/-! The outbox protocol between the pods of one sender region and one receiver:
`Enqueue` on any pod, `Consume` sessions that break and are opened again, and a
receiver that applies a batch and then acks it. -/
namespace Transmogr.OutboxProtocol

open Sql

/-- The events of a batch as the receiver decodes them. -/
def received (batch : OutboxBatch) : List ReplicationEvent := batch.events.map (·.received)

/-- Batches with a transaction id travel as `TransactionBatch`. -/
def kind (batch : OutboxBatch) : BatchKind :=
  if batch.txID ≠ "" then .transactionBatch else .eventBatch

/-- The table and last event id `sendAck` is called with. -/
def ackOf (batch : OutboxBatch) : String × String :=
  (match kind batch with
    | .eventBatch => ((received batch).head?.map (·.table)).getD ""
    | .transactionBatch => "", batch.lastEventID)

structure State (V : Type) where
  clock : Nat
  nextID : Nat
  /-- The pending rows of the receiver's region. -/
  rows : List OutboxBatch
  /-- The pod of each inserted batch whose `publishLive` has not run. -/
  waiting : List (Nat × OutboxBatch)
  /-- The open session and the pod that serves it. -/
  session : Option (Nat × Consume)
  store : Store V
  /-- Acks that were sent and not handled yet. -/
  acks : List (String × String)
  /-- Every batch ever inserted. -/
  history : List OutboxBatch
  /-- Every event the receiver applied. -/
  applied : List ReplicationEvent
  /-- Every batch an ack deleted. -/
  acked : List OutboxBatch

def State.unpublished {V : Type} (s : State V) : List OutboxBatch := s.waiting.map (·.2)

inductive Action where
  | tick
  /-- A row of another peer takes the next id. -/
  | skipID
  | enqueue (pod : Nat) (batch : OutboxBatch)
  /-- `publishLive` for the inserted batch with this id. -/
  | publish (id : Nat)
  | connect (pod : Nat) (snapshotRequested : Bool)
  | consume
  | receive
  /-- One of the acks under way is handled. -/
  | ack (index : Nat)
  | disconnect

def initial {V : Type} (tables : Tables V) : State V :=
  ⟨1, 1, [], [], none, ⟨tables, fun _ _ => none⟩, [], [], [], []⟩

section Step

variable {V : Type} [DecidableEq V] (repo : Repository) (server : Server V)
  (mode : ReplicationApplyMode) (peerRegion : String)

/-- `handleEventBatch` and `handleTransactionBatch` up to the ack. -/
def handleBatch (batch : OutboxBatch) (store : Store V) : Except String (Store V) := do
  let events ← toReplicationEvents (toProtoEvents batch.events)
  applyBatch repo server mode (kind batch) events store

def step (s : State V) : Action → Option (State V)
  | .tick => some { s with clock := s.clock + 1 }
  | .skipID => some { s with nextID := s.nextID + 1 }
  | .enqueue pod batch =>
    match batch.validate with
    | .error _ => none
    | .ok () =>
      if batch.peerRegion = peerRegion then
        match insertPending s.rows (batch.stamped s.nextID s.clock) with
        | none => some { s with nextID := s.nextID + 1 }
        | some rows => some { s with
            nextID := s.nextID + 1
            rows
            waiting := s.waiting ++ [(pod, batch.stamped s.nextID s.clock)]
            history := s.history ++ [batch.stamped s.nextID s.clock] }
      else none
  | .publish id =>
    match s.waiting.find? (·.2.id = id) with
    | none => none
    | some (pod, batch) => some { s with
        waiting := s.waiting.filter (·.2.id ≠ id)
        session := s.session.map fun (serving, c) =>
          (serving, if serving = pod then c.publish batch else c) }
  | .connect pod snapshotRequested =>
    match s.session with
    | some _ => none
    | none => some { s with session := some (pod, .start peerRegion snapshotRequested) }
  | .consume =>
    match s.session with
    | none => none
    | some (pod, c) => (c.advance s.clock s.rows).map fun c => { s with session := some (pod, c) }
  | .receive =>
    match s.session with
    | none => none
    | some (pod, c) =>
      match c.queue with
      | [] => none
      | batch :: queue =>
        match handleBatch repo server mode batch s.store with
        -- The receiver returns the error and the stream closes.
        | .error _ => some { s with session := none }
        | .ok store => some { s with
            session := some (pod, { c with queue })
            store
            applied := s.applied ++
              appliedOfBatch mode s.store.cursors ⟨kind batch, received batch⟩
            acks := s.acks ++ [ackOf batch] }
  | .ack index =>
    match s.acks[index]? with
    | none => none
    | some (table, lastEventID) => some { s with
        rows := ackPending s.rows peerRegion table lastEventID
        acked := s.acked ++ s.rows.filter fun b =>
          b ∉ ackPending s.rows peerRegion table lastEventID
        acks := s.acks.eraseIdx index }
  | .disconnect => some { s with session := none }

end Step

section Conditions

variable {V : Type}

/-- Events are enqueued in increasing order of version and key within a table,
and no two batches end with the same event. -/
def inOrder (s : State V) : Action → Bool
  | .enqueue _ batch => Ascending ((s.history ++ [batch]).flatMap received) ∧
      ∀ b ∈ s.history, b.lastEventID ≠ batch.lastEventID
  | _ => true

/-- The batch still reaches the open session, and the cursor column returns its
keys unchanged, all above the position of an empty cursor. -/
def reaches (s : State V) (batch : OutboxBatch) : Bool :=
  s.session.all (fun (_, c) => c.willDeliver (batch.stamped s.nextID s.clock)) &&
    (received batch).all fun e =>
      storedKey e.primaryKey = e.primaryKey ∧ Position.Before ⟨0, []⟩ e.position

/-- `publishLive` reaches the open session in insertion order: the batch is the
oldest unpublished one, on the pod that serves the session, whose channel has
room. Batches that the session replays are exempt. -/
def reachesLive (s : State V) (pod : Nat) (batch : OutboxBatch) : Bool :=
  s.session.all fun (serving, c) => c.watermark.all fun live =>
    batch.createdAt ≤ live ∨ serving = pod ∧ c.channel.length < liveReplicationBufferSize ∧
      ∀ b ∈ s.unpublished, batch.id ≤ b.id

def noGap (s : State V) : Action → Bool
  | .enqueue _ batch => reaches s batch
  | .publish id => (s.waiting.find? (·.2.id = id)).all fun (pod, batch) => reachesLive s pod batch
  | _ => true

end Conditions

/-! ## The invariant -/

/-- Every allowed event of the batch was applied. -/
def Done (mode : ReplicationApplyMode) (applied : List ReplicationEvent) (batch : OutboxBatch) :
    Prop :=
  ∀ e ∈ received batch, applyAllowed mode e.operation = true → e ∈ applied

section Invariant

variable {V : Type} (mode : ReplicationApplyMode) (peerRegion : String)

/-- What holds of the outbox in any order of events and whatever `publishLive` reaches. -/
structure Recorded (s : State V) : Prop where
  clock : 0 < s.clock
  nextID : 0 < s.nextID
  history : Chronicle peerRegion s.clock s.history
  ids : ∀ b ∈ s.history, b.id < s.nextID
  rows : s.rows.Sublist s.history
  waiting : s.unpublished.Sublist s.history

/-- What holds of a session whatever it still delivers. -/
structure Tracks (s : State V) (c : Consume) : Prop where
  peer : c.peerRegion = peerRegion
  channel : ∀ b ∈ c.channel, b ∈ s.history
  early : c.watermark = none → c.EarlyOk s.clock
  replay : c.ReplayOk s.nextID

/-- What the session still delivers are batches in insertion order, and among
them is every batch that is not done. -/
structure SessionOk (s : State V) (c : Consume) : Prop extends Tracks peerRegion s c where
  inOrder : ∀ live, c.watermark = some live →
    (c.pipeline live s.rows s.unpublished).Sublist s.history
  covers : ∀ live, c.watermark = some live →
    ∀ b ∈ s.history, Done mode s.applied b ∨ b ∈ c.pipeline live s.rows s.unpublished

/-- What the outbox and the receiver agree on, whatever session is open. -/
structure LogOk (s : State V) : Prop extends Recorded peerRegion s where
  ascending : Ascending (s.history.flatMap received)
  kept : ∀ b ∈ s.history, ∀ e ∈ received b, e.Kept
  lastEvents : s.history.Pairwise (·.lastEventID ≠ ·.lastEventID)
  cursors : ∀ r t, (readCursor s.store.cursors r t).position = ⟨0, []⟩ ∨
    ∃ b ∈ s.history, ∃ e ∈ received b, e.peerRegion = r ∧ e.table = t ∧
      (readCursor s.store.cursors r t).position = e.position
  behind : ∀ b ∈ s.history, ∀ e ∈ received b, applyAllowed mode e.operation = true →
    stale s.store.cursors e = true → e ∈ s.applied
  pending : ∀ b ∈ s.history, Done mode s.applied b ∨ b ∈ s.rows
  acks : ∀ a ∈ s.acks, ∃ b ∈ s.history, b.lastEventID = a.2 ∧ Done mode s.applied b
  acked : ∀ b ∈ s.acked, Done mode s.applied b

structure Ok (s : State V) : Prop where
  log : LogOk mode peerRegion s
  session : ∀ pod c, s.session = some (pod, c) → SessionOk mode peerRegion s c

end Invariant

/-- The state after a batch was inserted on a pod. -/
def State.insert {V : Type} (s : State V) (pod : Nat) (b : OutboxBatch) : State V :=
  { s with
    nextID := s.nextID + 1
    rows := s.rows ++ [b]
    waiting := s.waiting ++ [(pod, b)]
    history := s.history ++ [b] }

section Moves

variable {V : Type} [DecidableEq V] (repo : Repository) (server : Server V)
  (mode : ReplicationApplyMode) (peerRegion : String)

/-- What a step does, action by action. -/
inductive Moves (s : State V) : Action → State V → Prop
  | tick : Moves s .tick { s with clock := s.clock + 1 }
  | skipID : Moves s .skipID { s with nextID := s.nextID + 1 }
  | conflict {pod : Nat} {batch : OutboxBatch} :
      Moves s (.enqueue pod batch) { s with nextID := s.nextID + 1 }
  | enqueue (pod : Nat) (batch : OutboxBatch) (peer : batch.peerRegion = peerRegion)
      (fresh : ∀ row ∈ s.rows, row.conflicts batch = false) :
      Moves s (.enqueue pod batch) (s.insert pod (batch.stamped s.nextID s.clock))
  | publish (pod : Nat) (batch : OutboxBatch)
      (found : s.waiting.find? (·.2.id = batch.id) = some (pod, batch)) :
      Moves s (.publish batch.id) { s with
        waiting := s.waiting.filter (·.2.id ≠ batch.id)
        session := s.session.map fun (serving, c) =>
          (serving, if serving = pod then c.publish batch else c) }
  | connect {pod : Nat} {snapshotRequested : Bool} (idle : s.session = none) :
      Moves s (.connect pod snapshotRequested)
        { s with session := some (pod, .start peerRegion snapshotRequested) }
  | consume {pod : Nat} {c c' : Consume} (here : s.session = some (pod, c))
      (taken : c.advance s.clock s.rows = some c') :
      Moves s .consume { s with session := some (pod, c') }
  | refuse {pod : Nat} {c : Consume} {batch : OutboxBatch} {queue : List OutboxBatch}
      (here : s.session = some (pod, c)) (next : c.queue = batch :: queue) :
      Moves s .receive { s with session := none }
  | receive {pod : Nat} {c : Consume} {batch : OutboxBatch} {queue : List OutboxBatch}
      {store : Store V} (here : s.session = some (pod, c)) (next : c.queue = batch :: queue)
      (handled : handleBatch repo server mode batch s.store = .ok store) :
      Moves s .receive { s with
        session := some (pod, { c with queue })
        store
        applied := s.applied ++ appliedOfBatch mode s.store.cursors ⟨kind batch, received batch⟩
        acks := s.acks ++ [ackOf batch] }
  | ack (index : Nat) (table lastEventID : String)
      (found : s.acks[index]? = some (table, lastEventID)) :
      Moves s (.ack index) { s with
        rows := ackPending s.rows peerRegion table lastEventID
        acked := s.acked ++ s.rows.filter fun b =>
          b ∉ ackPending s.rows peerRegion table lastEventID
        acks := s.acks.eraseIdx index }
  | disconnect : Moves s .disconnect { s with session := none }

variable {repo server mode peerRegion} {s t : State V} {action : Action}

theorem step_moves (taken : step repo server mode peerRegion s action = some t) :
    Moves repo server mode peerRegion s action t := by
  cases action with
  | tick => cases taken; exact .tick
  | skipID => cases taken; exact .skipID
  | disconnect => cases taken; exact .disconnect
  | enqueue pod batch =>
    simp only [step, insertPending] at taken
    split at taken
    · cases taken
    · split at taken
      · next peer =>
        split at taken
        · cases taken; exact .conflict
        · next rows inserted =>
          cases taken
          split at inserted
          · cases inserted
          · next fresh =>
            cases inserted
            apply Moves.enqueue pod batch peer
            intro row mem
            apply Bool.eq_false_iff.mpr
            intro conflicts
            exact fresh (List.any_eq_true.mpr ⟨row, mem, conflicts⟩)
      · cases taken
  | publish id =>
    simp only [step] at taken
    split at taken
    · cases taken
    · next pod batch found =>
      cases taken
      have same : batch.id = id := by simpa using List.find?_some found
      subst same
      exact .publish pod batch found
  | connect pod snapshotRequested =>
    simp only [step] at taken
    split at taken
    · cases taken
    · next idle => cases taken; exact .connect idle
  | consume =>
    simp only [step] at taken
    split at taken
    · cases taken
    · next pod c here =>
      obtain ⟨c', advanced, rfl⟩ := Option.map_eq_some_iff.mp taken
      exact .consume here advanced
  | receive =>
    simp only [step] at taken
    split at taken
    · cases taken
    · next pod c here =>
      split at taken
      · cases taken
      · next batch queue next =>
        split at taken
        · cases taken; exact .refuse here next
        · next store handled => cases taken; exact .receive here next handled
  | ack index =>
    simp only [step] at taken
    split at taken
    · cases taken
    · next table lastEventID found => cases taken; exact .ack index table lastEventID found

end Moves

section Proofs

variable {V : Type} {mode : ReplicationApplyMode} {peerRegion : String} {s t : State V}

theorem Done.mono {applied applied' : List ReplicationEvent} {batch : OutboxBatch}
    (done : Done mode applied batch) (sub : ∀ e ∈ applied, e ∈ applied') : Done mode applied' batch :=
  fun e mem allowed => sub e (done e mem allowed)

theorem received_typed {batch : OutboxBatch} {e : ReplicationEvent} (mem : e ∈ received batch) :
    e.Typed := by
  obtain ⟨event, _, rfl⟩ := List.mem_map.mp mem
  exact (throughWire_wireKey event.primaryKey).typed

theorem received_set {batch : OutboxBatch} {e : ReplicationEvent} (mem : e ∈ received batch) :
    e.operation ≠ .unset := by
  obtain ⟨event, _, rfl⟩ := List.mem_map.mp mem
  change fromProtoOperation (toProtoOperation event.operation) ≠ .unset
  cases event.operation <;> decide

theorem ok_tick (ok : Ok mode peerRegion s) : Ok mode peerRegion { s with clock := s.clock + 1 } where
  log := { ok.log with
    clock := Nat.succ_pos _
    history := ok.log.history.later (Nat.le_succ _) }
  session pod c eq := { ok.session pod c eq with
    early := fun none => ((ok.session pod c eq).early none).later (Nat.le_succ _) }

theorem ok_skipID (ok : Ok mode peerRegion s) :
    Ok mode peerRegion { s with nextID := s.nextID + 1 } where
  log := { ok.log with
    nextID := Nat.succ_pos _
    ids := fun b mem => Nat.lt_succ_of_lt (ok.log.ids b mem) }
  session pod c eq := { ok.session pod c eq with
    replay := (ok.session pod c eq).replay.mono (Nat.le_succ _) }

theorem ok_disconnect (ok : Ok mode peerRegion s) :
    Ok mode peerRegion { s with session := none } where
  log := { ok.log with }
  session := nofun

theorem tracks_start (s : State V) (snapshotRequested : Bool) :
    Tracks peerRegion s (.start peerRegion snapshotRequested) :=
  ⟨rfl, nofun, fun _ => ⟨rfl, by simp [Consume.start]⟩, trivial⟩

theorem ok_connect (ok : Ok mode peerRegion s) (pod : Nat) (snapshotRequested : Bool) :
    Ok mode peerRegion { s with session := some (pod, .start peerRegion snapshotRequested) } where
  log := { ok.log with }
  session pod c eq := by
    cases eq
    exact ⟨{ tracks_start s snapshotRequested with }, nofun, nofun⟩

theorem Tracks.inHistory {c : Consume} (tracks : Tracks peerRegion s c) (recorded : Recorded peerRegion s) :
    ∀ b ∈ c.channel ++ s.unpublished, b ∈ s.history := by
  intro b mem
  rcases List.mem_append.mp mem with mem | mem
  · exact tracks.channel b mem
  · exact recorded.waiting.subset mem

/-- The session delivers all rows once the watermark is read, and then what it did before. -/
theorem Tracks.advance {c c' : Consume} (tracks : Tracks peerRegion s c)
    (recorded : Recorded peerRegion s) (taken : c.advance s.clock s.rows = some c') :
    Tracks peerRegion s c' ∧ ∀ live, c'.watermark = some live →
      c'.pipeline live s.rows s.unpublished = s.rows ∨ c.watermark = some live ∧
        c'.pipeline live s.rows s.unpublished = c.pipeline live s.rows s.unpublished := by
  obtain ⟨peer, _, channel⟩ := Consume.advance_frame taken
  have rows : Chronicle c.peerRegion s.clock s.rows :=
    tracks.peer.symm ▸ recorded.history.sublist recorded.rows
  obtain ⟨early, replay, pipeline⟩ := Consume.advance_session rows recorded.clock
    (fun b mem => (recorded.history.stamps b (tracks.inHistory recorded b mem)).2)
    (fun b mem => recorded.ids b (recorded.rows.subset mem)) recorded.nextID tracks.early tracks.replay
    taken
  exact ⟨⟨peer.trans tracks.peer, fun b mem => tracks.channel b (channel b mem), early, replay⟩, pipeline⟩

theorem ok_consume {pod : Nat} {c c' : Consume} (ok : Ok mode peerRegion s)
    (here : s.session = some (pod, c)) (taken : c.advance s.clock s.rows = some c') :
    Ok mode peerRegion { s with session := some (pod, c') } where
  log := { ok.log with }
  session pod' d eq := by
    cases eq
    have session := ok.session pod c here
    obtain ⟨tracks, pipeline⟩ := session.toTracks.advance ok.log.toRecorded taken
    refine ⟨{ tracks with }, fun live mark => ?_, fun live mark b mem => ?_⟩
    · change (c'.pipeline live s.rows s.unpublished).Sublist s.history
      rcases pipeline live mark with whole | ⟨before, same⟩
      · rw [whole]
        exact ok.log.rows
      · rw [same]
        exact session.inOrder live before
    · change Done mode s.applied b ∨ b ∈ c'.pipeline live s.rows s.unpublished
      rcases pipeline live mark with whole | ⟨before, same⟩
      · rw [whole]
        exact ok.log.pending b mem
      · rw [same]
        exact session.covers live before b mem

theorem recorded_initial (tables : Tables V) : Recorded peerRegion (initial tables) :=
  ⟨Nat.one_pos, Nat.one_pos, ⟨nofun, .nil, .nil, nofun⟩, nofun, .slnil, .slnil⟩

theorem ok_initial (tables : Tables V) : Ok mode peerRegion (initial tables) where
  log := ⟨recorded_initial tables, .nil, nofun, .nil, fun _ _ => .inl rfl, nofun, nofun, nofun, nofun⟩
  session := nofun

theorem unpublished_insert (s : State V) (pod : Nat) (b : OutboxBatch) :
    (s.insert pod b).unpublished = s.unpublished ++ [b] := by
  simp [State.unpublished, State.insert]

/-- A row that is stamped as it is inserted. -/
theorem Recorded.insert {b : OutboxBatch} (recorded : Recorded peerRegion s)
    (peer : b.peerRegion = peerRegion) (id : b.id = s.nextID) (time : b.createdAt = s.clock) (pod : Nat) :
    Recorded peerRegion (s.insert pod b) where
  clock := recorded.clock
  nextID := Nat.succ_pos _
  history := recorded.history.snoc peer (fun a mem => id ▸ recorded.ids a mem)
    (fun a mem => time ▸ (recorded.history.stamps a mem).2.2)
    ⟨id ▸ recorded.nextID, time ▸ recorded.clock, time.le⟩
  ids a mem := by
    rcases List.mem_append.mp mem with mem | mem
    · exact Nat.lt_succ_of_lt (recorded.ids a mem)
    · rw [List.mem_singleton.mp mem, id]
      exact Nat.lt_succ_self _
  rows := recorded.rows.append (.refl _)
  waiting := by
    rw [unpublished_insert]
    exact recorded.waiting.append (.refl [b])

/-- A stamped batch whose events are above everything enqueued so far. -/
structure Inserts (peerRegion : String) (s : State V) (b : OutboxBatch) : Prop where
  peer : b.peerRegion = peerRegion
  id : b.id = s.nextID
  time : b.createdAt = s.clock
  ascending : Ascending (s.history.flatMap received ++ received b)
  kept : ∀ e ∈ received b, e.Kept
  above : ∀ e ∈ received b, Position.Before ⟨0, []⟩ e.position
  lastEvent : ∀ a ∈ s.history, a.lastEventID ≠ b.lastEventID

theorem inserts_stamped {pod : Nat} {batch : OutboxBatch} (peer : batch.peerRegion = peerRegion)
    (ordered : inOrder s (.enqueue pod batch) = true)
    (arrives : noGap s (.enqueue pod batch) = true) :
    Inserts peerRegion s (batch.stamped s.nextID s.clock) := by
  obtain ⟨ascending, fresh⟩ := of_decide_eq_true ordered
  have keys : ∀ e ∈ received batch, storedKey e.primaryKey = e.primaryKey ∧
      Position.Before ⟨0, []⟩ e.position := by
    intro e mem
    have keys := (Bool.and_eq_true_iff.mp arrives).2
    simpa only [decide_eq_true_eq] using List.all_eq_true.mp keys e mem
  rw [List.flatMap_append, List.flatMap_singleton] at ascending
  exact ⟨peer, rfl, rfl, ascending, fun e mem => (keys e mem).1, fun e mem => (keys e mem).2, fresh⟩

section Insert

variable {b : OutboxBatch}

/-- What still reaches the session goes to the end of what it delivers. -/
theorem Tracks.pipeline_insert {c : Consume} {live : Nat} (tracks : Tracks peerRegion s c)
    (recorded : Recorded peerRegion s) (inserts : Inserts peerRegion s b)
    (delivers : c.willDeliver b = true) (mark : c.watermark = some live) (pod : Nat) :
    c.pipeline live (s.insert pod b).rows (s.insert pod b).unpublished =
      c.pipeline live s.rows s.unpublished ++ [b] := by
  have times : ∀ a ∈ s.history, a.createdAt ≤ b.createdAt := fun a mem =>
    inserts.time ▸ (recorded.history.stamps a mem).2.2
  rw [unpublished_insert]
  exact Consume.pipeline_insert (inserts.peer.trans tracks.peer.symm) mark (inserts.id ▸ tracks.replay)
    (fun a mem => times a (recorded.rows.subset mem))
    (fun a mem => times a (tracks.inHistory recorded a mem)) delivers

/-- The cursors are below everything enqueued later. -/
theorem LogOk.not_behind (log : LogOk mode peerRegion s) (inserts : Inserts peerRegion s b)
    {e : ReplicationEvent} (mem : e ∈ received b) : stale s.store.cursors e ≠ true := by
  intro behind
  refine absurd ?_ (stale_iff.mp behind)
  rcases log.cursors e.peerRegion e.table with empty | ⟨a, memA, e', memE', r, t, position⟩
  · rw [empty]
    exact inserts.above e mem
  · rw [position]
    exact (List.pairwise_append.mp inserts.ascending).2.2 e' (List.mem_flatMap.mpr ⟨a, memA, memE'⟩)
      e mem ⟨r, t⟩

theorem LogOk.insert (log : LogOk mode peerRegion s) (inserts : Inserts peerRegion s b) (pod : Nat) :
    LogOk mode peerRegion (s.insert pod b) where
  toRecorded := log.toRecorded.insert inserts.peer inserts.id inserts.time pod
  ascending := by simpa [State.insert] using inserts.ascending
  kept a mem e memE := by
    rcases List.mem_append.mp mem with mem | mem
    · exact log.kept a mem e memE
    · rw [List.mem_singleton.mp mem] at memE
      exact inserts.kept e memE
  lastEvents := by
    refine List.pairwise_append.mpr ⟨log.lastEvents, List.pairwise_singleton _ _, ?_⟩
    intro a mem c memC
    rw [List.mem_singleton.mp memC]
    exact inserts.lastEvent a mem
  cursors r t := (log.cursors r t).imp_right fun ⟨a, mem, found⟩ =>
    ⟨a, List.mem_append_left _ mem, found⟩
  behind a mem e memE allowed behind := by
    rcases List.mem_append.mp mem with mem | mem
    · exact log.behind a mem e memE allowed behind
    · rw [List.mem_singleton.mp mem] at memE
      exact absurd behind (log.not_behind inserts memE)
  pending a mem := by
    rcases List.mem_append.mp mem with mem | mem
    · exact (log.pending a mem).imp_right (List.mem_append_left _)
    · exact .inr (List.mem_append_right _ mem)
  acks a mem := by
    obtain ⟨c, memC, last, done⟩ := log.acks a mem
    exact ⟨c, List.mem_append_left _ memC, last, done⟩
  acked := log.acked

theorem SessionOk.insert {c : Consume} (session : SessionOk mode peerRegion s c)
    (log : LogOk mode peerRegion s) (inserts : Inserts peerRegion s b)
    (delivers : c.willDeliver b = true) (pod : Nat) :
    SessionOk mode peerRegion (s.insert pod b) c := by
  have inserted := fun live mark =>
    @Tracks.pipeline_insert _ _ s b c live session.toTracks log.toRecorded inserts delivers mark pod
  refine ⟨⟨session.peer, fun a mem => List.mem_append_left _ (session.channel a mem), session.early,
    session.replay.mono (Nat.le_succ _)⟩, fun live mark => ?_, fun live mark a mem => ?_⟩
  · rw [inserted live mark]
    exact (session.inOrder live mark).append (.refl _)
  · rw [inserted live mark]
    rcases List.mem_append.mp mem with mem | mem
    · exact (session.covers live mark a mem).imp_right (List.mem_append_left _)
    · exact .inr (List.mem_append_right _ mem)

end Insert

theorem ok_enqueue {pod : Nat} {batch : OutboxBatch} (ok : Ok mode peerRegion s)
    (peer : batch.peerRegion = peerRegion) (ordered : inOrder s (.enqueue pod batch) = true)
    (arrives : noGap s (.enqueue pod batch) = true) :
    Ok mode peerRegion (s.insert pod (batch.stamped s.nextID s.clock)) := by
  have inserts := inserts_stamped peer ordered arrives
  refine ⟨ok.log.insert inserts pod, fun pod' c here => ?_⟩
  have delivered := (Bool.and_eq_true_iff.mp arrives).1
  rw [show s.session = some (pod', c) from here] at delivered
  exact (ok.session pod' c here).insert ok.log inserts delivered pod

/-- The oldest unpublished batch stands first. -/
theorem filter_ne_oldest {waiting : List (Nat × OutboxBatch)} {entry : Nat × OutboxBatch}
    (sorted : (waiting.map (·.2)).Pairwise (·.id < ·.id)) (mem : entry ∈ waiting)
    (oldest : ∀ b ∈ waiting.map (·.2), entry.2.id ≤ b.id) :
    waiting = entry :: waiting.filter (·.2.id ≠ entry.2.id) := by
  cases waiting with
  | nil => cases mem
  | cons head rest =>
    rw [List.map_cons, List.pairwise_cons] at sorted
    obtain ⟨first, later⟩ := sorted
    have same : entry = head := by
      rcases List.mem_cons.mp mem with same | inRest
      · exact same
      · have lt := first entry.2 (List.mem_map_of_mem inRest)
        have le := oldest head.2 List.mem_cons_self
        omega
    subst same
    have others : rest.filter (·.2.id ≠ entry.2.id) = rest := by
      refine List.filter_eq_self.mpr fun other memOther => decide_eq_true ?_
      have lt := first other.2 (List.mem_map_of_mem memOther)
      omega
    rw [List.filter_cons_of_neg (by simp), others]

theorem reachesLive_spec {pod serving : Nat} {batch : OutboxBatch} {c : Consume} {live : Nat}
    (inTime : reachesLive s pod batch = true) (here : s.session = some (serving, c))
    (mark : c.watermark = some live) : batch.createdAt ≤ live ∨
      serving = pod ∧ c.channel.length < liveReplicationBufferSize ∧
        ∀ b ∈ s.unpublished, batch.id ≤ b.id := by
  simpa only [reachesLive, here, mark, Option.all_some, decide_eq_true_eq] using inTime

/-- Publishing leaves what the session delivers as it is. -/
theorem publish_keeps_pipeline {pod serving live : Nat} {batch : OutboxBatch} {c : Consume}
    (log : LogOk mode peerRegion s) (peer : c.peerRegion = peerRegion)
    (mem : (pod, batch) ∈ s.waiting) (mark : c.watermark = some live)
    (inTime : batch.createdAt ≤ live ∨ serving = pod ∧
      c.channel.length < liveReplicationBufferSize ∧ ∀ b ∈ s.unpublished, batch.id ≤ b.id) :
    (if serving = pod then c.publish batch else c).pipeline live s.rows
        ((s.waiting.filter (·.2.id ≠ batch.id)).map (·.2)) =
      c.pipeline live s.rows s.unpublished := by
  have inHistory : batch ∈ s.history := log.waiting.subset (List.mem_map_of_mem mem)
  rcases inTime with replayed | ⟨onPod, room, oldest⟩
  · have rest : (s.waiting.filter (·.2.id ≠ batch.id)).map (·.2) =
        s.unpublished.filter (·.id ≠ batch.id) := by
      rw [State.unpublished, List.filter_map]
      rfl
    have others : (s.unpublished.filter (·.id ≠ batch.id)).filter (live < ·.createdAt) =
        s.unpublished.filter (live < ·.createdAt) := by
      rw [List.filter_filter]
      refine List.filter_congr fun a memA => ?_
      by_cases isBatch : a.id = batch.id
      · rw [log.history.eq_of_id (log.waiting.subset memA) inHistory isBatch]
        simp [Nat.not_lt.mpr replayed]
      · simp [isBatch]
    have moved : ∀ waiting, (if serving = pod then c.publish batch else c).pipeline live s.rows waiting =
        c.pipeline live s.rows waiting := by
      intro waiting
      split
      · exact Consume.pipeline_publish_replayed replayed
      · rfl
    rw [rest, moved, Consume.pipeline, Consume.pipeline, List.filter_append, others,
      ← List.filter_append]
  · have first := filter_ne_oldest (log.history.ids.sublist log.waiting) mem oldest
    rw [if_pos onPod, Consume.pipeline_publish
      ((log.history.peer batch inHistory).trans peer.symm) mark room]
    exact congrArg (c.pipeline live s.rows) (congrArg (List.map Prod.snd) first).symm

theorem watermark_published (c : Consume) (batch : OutboxBatch) (serving pod : Nat) :
    (if serving = pod then c.publish batch else c).watermark = c.watermark := by
  split
  · exact Consume.publish_watermark ..
  · rfl

theorem Tracks.publish {c : Consume} {batch : OutboxBatch} (tracks : Tracks peerRegion s c)
    (inHistory : batch ∈ s.history) (serving pod : Nat) :
    Tracks peerRegion s (if serving = pod then c.publish batch else c) := by
  split
  · refine ⟨(Consume.publish_peerRegion ..).trans tracks.peer, fun b mem => ?_, ?_,
      Consume.publish_replayOk tracks.replay⟩
    · rcases Consume.mem_publish_channel mem with mem | rfl
      · exact tracks.channel b mem
      · exact inHistory
    · rw [Consume.publish_watermark]
      simpa [Consume.EarlyOk] using tracks.early
  · exact tracks

theorem ok_publish {pod : Nat} {batch : OutboxBatch} (ok : Ok mode peerRegion s)
    (mem : (pod, batch) ∈ s.waiting) (inTime : reachesLive s pod batch = true) :
    Ok mode peerRegion { s with
      waiting := s.waiting.filter (·.2.id ≠ batch.id)
      session := s.session.map fun (serving, c) =>
        (serving, if serving = pod then c.publish batch else c) } := by
  have log := ok.log
  have sub : ((s.waiting.filter (·.2.id ≠ batch.id)).map (·.2)).Sublist s.unpublished :=
    List.filter_sublist.map _
  refine ⟨{ log with waiting := sub.trans log.waiting }, ?_⟩
  intro serving c' eq
  obtain ⟨⟨serving', c⟩, here, published⟩ := Option.map_eq_some_iff.mp eq
  cases published
  have session := ok.session serving c here
  have same : ∀ live, c.watermark = some live →
      (if serving = pod then c.publish batch else c).pipeline live s.rows
          ((s.waiting.filter (·.2.id ≠ batch.id)).map (·.2)) =
        c.pipeline live s.rows s.unpublished := fun live mark =>
    publish_keeps_pipeline log session.peer mem mark (reachesLive_spec inTime here mark)
  have mark := watermark_published c batch serving pod
  have tracks := session.toTracks.publish (log.waiting.subset (List.mem_map_of_mem mem)) serving pod
  refine ⟨{ tracks with }, fun live read => ?_, fun live read => ?_⟩
  · change (Consume.pipeline _ live s.rows ((s.waiting.filter (·.2.id ≠ batch.id)).map (·.2))).Sublist
      s.history
    rw [same live (mark ▸ read)]
    exact session.inOrder live (mark ▸ read)
  · change ∀ b ∈ s.history, Done mode s.applied b ∨
      b ∈ Consume.pipeline _ live s.rows ((s.waiting.filter (·.2.id ≠ batch.id)).map (·.2))
    rw [same live (mark ▸ read)]
    exact session.covers live (mark ▸ read)

/-- Two batches of the history with the same last event are one. -/
theorem LogOk.eq_of_lastEventID (log : LogOk mode peerRegion s) {a b : OutboxBatch}
    (memA : a ∈ s.history) (memB : b ∈ s.history) (same : a.lastEventID = b.lastEventID) : a = b := by
  have : Std.Symm fun a b : OutboxBatch => a.lastEventID ≠ b.lastEventID := ⟨fun _ _ => Ne.symm⟩
  by_contra differ
  exact log.lastEvents.forall memA memB differ same

/-- An ack deletes no batch but the one that ends with its event. -/
theorem LogOk.eq_of_deleted (log : LogOk mode peerRegion s) {acked b : OutboxBatch}
    {table lastEventID : String} (memAcked : acked ∈ s.history) (last : acked.lastEventID = lastEventID)
    (mem : b ∈ s.rows) (gone : b ∉ ackPending s.rows peerRegion table lastEventID) : b = acked := by
  apply log.eq_of_lastEventID (log.rows.subset mem) memAcked
  rw [last]
  by_contra differ
  exact gone (List.mem_filter.mpr ⟨mem, decide_eq_true fun same => differ same.2.2⟩)

theorem ok_ack {index : Nat} {table lastEventID : String} (ok : Ok mode peerRegion s)
    (found : s.acks[index]? = some (table, lastEventID)) :
    Ok mode peerRegion { s with
      rows := ackPending s.rows peerRegion table lastEventID
      acked := s.acked ++ s.rows.filter fun b =>
        b ∉ ackPending s.rows peerRegion table lastEventID
      acks := s.acks.eraseIdx index } := by
  have log := ok.log
  obtain ⟨acked, memAcked, last, done⟩ := log.acks _ (List.mem_of_getElem? found)
  have sub : (ackPending s.rows peerRegion table lastEventID).Sublist s.rows := List.filter_sublist
  have deleted : ∀ b ∈ s.rows, b ∉ ackPending s.rows peerRegion table lastEventID →
      Done mode s.applied b :=
    fun b mem gone => log.eq_of_deleted memAcked last mem gone ▸ done
  have kept : ∀ b ∈ s.rows, Done mode s.applied b ∨
      b ∈ ackPending s.rows peerRegion table lastEventID := by
    intro b mem
    by_cases gone : b ∈ ackPending s.rows peerRegion table lastEventID
    · exact .inr gone
    · exact .inl (deleted b mem gone)
  refine ⟨{ log with
    rows := sub.trans log.rows
    pending := fun b mem => (log.pending b mem).elim .inl (kept b)
    acks := fun a mem => log.acks a (List.mem_of_mem_eraseIdx mem)
    acked := fun b mem => ?_ }, fun pod c here => ?_⟩
  · rcases List.mem_append.mp mem with mem | mem
    · exact log.acked b mem
    · obtain ⟨inRows, gone⟩ := List.mem_filter.mp mem
      exact deleted b inRows (of_decide_eq_true gone)
  · have session := ok.session pod c here
    refine ⟨{ session with }, fun live mark => ?_, fun live mark b mem => ?_⟩
    · exact (Consume.pipeline_sublist sub).trans (session.inOrder live mark)
    rcases session.covers live mark b mem with done | inPipeline
    · exact .inl done
    · by_cases done : Done mode s.applied b
      · exact .inl done
      · refine .inr (Consume.mem_pipeline_of_kept inPipeline fun inRows => ?_)
        exact (kept b inRows).resolve_left done

variable [DecidableEq V] {repo : Repository} {server : Server V}

theorem handleBatch_eq (batch : OutboxBatch) (store : Store V) :
    handleBatch repo server mode batch store =
      applyBatch repo server mode (kind batch) (received batch) store := by
  rw [handleBatch, toReplicationEvents_toProto]
  rfl

/-- What `receive` adds to `applied` are the events the transaction applied. -/
theorem handleBatch_applied {batch : OutboxBatch} {store store' : Store V}
    (handled : handleBatch repo server mode batch store = .ok store') :
    applyEventsBatch repo server mode
      (appliedOfBatch mode store.cursors ⟨kind batch, received batch⟩) store.tables =
        .ok store'.tables := by
  rw [handleBatch_eq] at handled
  exact @applyEventsBatch_applied V _ repo server mode store store' ⟨kind batch, received batch⟩ handled

section Receive

variable {pod live : Nat} {c : Consume} {batch : OutboxBatch} {queue : List OutboxBatch}
  {store : Store V}

omit [DecidableEq V] in
/-- A batch is queued only once the watermark is read, and stands before the rest of the line. -/
theorem Tracks.line (tracks : Tracks peerRegion s c) (next : c.queue = batch :: queue) :
    ∃ live, c.watermark = some live ∧ c.pipeline live s.rows s.unpublished =
      batch :: Consume.pipeline { c with queue } live s.rows s.unpublished := by
  cases mark : c.watermark with
  | none =>
    rw [(tracks.early mark).1] at next
    cases next
  | some live =>
    refine ⟨live, rfl, ?_⟩
    simp only [Consume.pipeline, next, List.cons_append]
    rfl

omit [DecidableEq V] in
/-- The first batch in line is an inserted one, everything inserted before it is done, and the
rest of the line covers what is not. -/
theorem SessionOk.first_in_line (session : SessionOk mode peerRegion s c)
    (log : LogOk mode peerRegion s) (mark : c.watermark = some live) {rest : List OutboxBatch}
    (line : c.pipeline live s.rows s.unpublished = batch :: rest) :
    batch ∈ s.history ∧ rest.Sublist s.history ∧
      (∀ a ∈ s.history, Done mode s.applied a ∨ a = batch ∨ a ∈ rest) ∧
      ∀ a ∈ s.history, a.id < batch.id → Done mode s.applied a := by
  have inOrder := session.inOrder live mark
  have covers := session.covers live mark
  rw [line] at inOrder covers
  refine ⟨inOrder.subset List.mem_cons_self, (List.sublist_cons_self _ _).trans inOrder,
    fun a mem => (covers a mem).imp_right List.mem_cons.mp, fun a mem lt => ?_⟩
  have later := (List.pairwise_cons.mp (log.history.ids.sublist inOrder)).1
  refine (covers a mem).resolve_right fun inLine => ?_
  rcases List.mem_cons.mp inLine with rfl | inLine
  · exact lt.false
  · exact absurd (later a inLine) (Nat.lt_asymm lt)

/-- A batch is done once it is applied. -/
theorem LogOk.done_of_handled (log : LogOk mode peerRegion s) (inHistory : batch ∈ s.history)
    (handled : applyBatch repo server mode (kind batch) (received batch) s.store = .ok store) :
    Done mode (s.applied ++ appliedOfBatch mode s.store.cursors ⟨kind batch, received batch⟩) batch := by
  change applyBatch repo server mode (Batch.mk (kind batch) (received batch)).kind
    (Batch.mk (kind batch) (received batch)).events s.store = _ at handled
  intro e mem allowed
  have within := (List.pairwise_flatMap.mp log.ascending).1 batch inHistory
  rcases applied_or_behind handled (fun _ => received_set) (fun _ => received_typed) within mem
    allowed with applied | behind
  · exact List.mem_append_right _ applied
  · exact List.mem_append_left _ (log.behind batch inHistory e mem allowed behind)

/-- The log after a batch was applied before which everything was done. -/
theorem LogOk.receive (log : LogOk mode peerRegion s) (inHistory : batch ∈ s.history)
    (earlier : ∀ a ∈ s.history, a.id < batch.id → Done mode s.applied a)
    (handled : applyBatch repo server mode (kind batch) (received batch) s.store = .ok store)
    (session : Option (Nat × Consume)) :
    LogOk mode peerRegion { s with
      session
      store
      applied := s.applied ++ appliedOfBatch mode s.store.cursors ⟨kind batch, received batch⟩
      acks := s.acks ++ [ackOf batch] } := by
  have done := log.done_of_handled inHistory handled
  have across := (List.pairwise_flatMap.mp log.ascending).2
  change applyBatch repo server mode (Batch.mk (kind batch) (received batch)).kind
    (Batch.mk (kind batch) (received batch)).events s.store = _ at handled
  have moved := cursor_of_applied handled (fun _ => received_set) (log.kept batch inHistory)
  have more : ∀ e ∈ s.applied, e ∈ s.applied ++
      appliedOfBatch mode s.store.cursors ⟨kind batch, received batch⟩ :=
    fun e => List.mem_append_left _
  refine { log with
    cursors := fun r t => ?_
    behind := fun a mem e memE allowed behind => ?_
    pending := fun a mem => (log.pending a mem).imp_left (·.mono more)
    acks := fun a mem => ?_
    acked := fun a mem => (log.acked a mem).mono more }
  · rcases moved r t with same | ⟨e, mem, pair⟩
    · change (readCursor store.cursors r t).position = _ ∨ _
      rw [same]
      exact log.cursors r t
    · exact .inr ⟨batch, inHistory, e, mem, pair⟩
  · rcases moved e.peerRegion e.table with same | ⟨e', memE', region, table, position⟩
    · have before : stale s.store.cursors e = true := by
        rw [stale_iff] at behind ⊢
        rwa [same] at behind
      exact more e (log.behind a mem e memE allowed before)
    · rcases Nat.lt_trichotomy a.id batch.id with lt | same | gt
      · exact more e (earlier a mem lt e memE allowed)
      · rw [log.history.eq_of_id mem inHistory same] at memE
        exact done e memE allowed
      · have before := Chunks.rel_of_key_lt log.history.ids across inHistory mem gt e' memE' e memE
          ⟨region, table⟩
        rw [stale_iff, position] at behind
        exact absurd before behind
  · rcases List.mem_append.mp mem with mem | mem
    · obtain ⟨b, memB, last, wasDone⟩ := log.acks a mem
      exact ⟨b, memB, last, wasDone.mono more⟩
    · rw [List.mem_singleton.mp mem]
      exact ⟨batch, inHistory, rfl, done⟩

/-- The first batch in line finds everything inserted before it done, and is
done once it is applied. -/
theorem ok_receive (ok : Ok mode peerRegion s) (here : s.session = some (pod, c))
    (next : c.queue = batch :: queue)
    (handled : handleBatch repo server mode batch s.store = .ok store) :
    Ok mode peerRegion { s with
      session := some (pod, { c with queue })
      store
      applied := s.applied ++ appliedOfBatch mode s.store.cursors ⟨kind batch, received batch⟩
      acks := s.acks ++ [ackOf batch] } := by
  have session := ok.session pod c here
  obtain ⟨live, mark, line⟩ := session.toTracks.line next
  obtain ⟨inHistory, inOrder, covers, earlier⟩ := session.first_in_line ok.log mark line
  rw [handleBatch_eq] at handled
  refine ⟨ok.log.receive inHistory earlier handled _, fun pod' c' eq => ?_⟩
  cases eq
  refine ⟨{ session.toTracks with early := fun none => nomatch mark.symm.trans none },
    fun live' read => ?_, fun live' read a mem => ?_⟩
  · cases mark.symm.trans read
    exact inOrder
  · cases mark.symm.trans read
    rcases covers a mem with wasDone | rfl | inLine
    · exact .inl (wasDone.mono fun e => List.mem_append_left _)
    · exact .inl (ok.log.done_of_handled inHistory handled)
    · exact .inr inLine

end Receive

theorem step_ok {action : Action} (ok : Ok mode peerRegion s) (ordered : inOrder s action = true)
    (inTime : noGap s action = true) (taken : step repo server mode peerRegion s action = some t) :
    Ok mode peerRegion t := by
  cases step_moves taken with
  | tick => exact ok_tick ok
  | skipID | conflict => exact ok_skipID ok
  | enqueue pod batch peer _ => exact ok_enqueue ok peer ordered inTime
  | publish pod batch found =>
    rw [noGap, found] at inTime
    exact ok_publish ok (List.mem_of_find?_eq_some found) inTime
  | connect _ => exact ok_connect ok _ _
  | consume here advanced => exact ok_consume ok here advanced
  | refuse | disconnect => exact ok_disconnect ok
  | receive here next handled => exact ok_receive ok here next handled
  | ack index table lastEventID found => exact ok_ack ok found

end Proofs

/-- Over every interleaving of enqueues, publishes, sessions, receives and acks
in which every live batch reaches the open session: whatever batch an ack
deletes, the receiver has applied every event of it that its mode allows. -/
theorem acked_batches_were_applied {V : Type} [DecidableEq V] {repo : Repository}
    {server : Server V} {mode : ReplicationApplyMode} {peerRegion : String} {tables : Tables V}
    {actions : List Action} {s : State V}
    (ordered : Machine.Meets (step repo server mode peerRegion) (inOrder · ·) (initial tables) actions)
    (inTime : Machine.Meets (step repo server mode peerRegion) (noGap · ·) (initial tables) actions)
    (ran : Machine.run (step repo server mode peerRegion) (initial tables) actions = some s) :
    ∀ batch ∈ s.acked, ∀ event ∈ received batch, applyAllowed mode event.operation = true →
      event ∈ s.applied := by
  have ok : Ok mode peerRegion s := Machine.invariant
    (fun _ _ _ ok meets taken => step_ok ok meets.1 meets.2 taken) (ok_initial tables)
    (ordered.and inTime) ran
  exact ok.log.acked

/-- Enough steps of a session to replay one page and forward live batches. -/
def opening (pod : Nat) : List Action :=
  .connect pod false :: List.replicate 5 .consume

/-- The session is served by pod 1. A batch enqueued on pod 0 never reaches it,
a later one enqueued on pod 1 does. -/
def enqueueOnTwoPods : List Action :=
  opening 1 ++ [.tick, .enqueue 0 (userBatch "a" 1), .publish 1, .enqueue 1 (userBatch "b" 2),
    .publish 2, .consume, .receive, .ack 0]

/-- After a reconnect the missed batch is replayed, skipped as stale and acked. -/
theorem missed_batch_acked_unapplied :
    ∃ s, Machine.run (step usersRepository usersServer .fullSync "us") (initial (Store.empty String).tables)
        (enqueueOnTwoPods ++ [.disconnect, .connect 1 false, .consume, .consume, .consume, .consume,
          .receive, .ack 0]) = some s ∧
      s.acked.map (·.lastEventID) = ["b", "a"] ∧ s.applied.map (·.eventID) = ["b"] :=
  ⟨_, rfl, by decide, by decide⟩

/-- One pod: a batch is replayed, a second one forwarded, both are acked. -/
def enqueueOnOnePod : List Action :=
  [.enqueue 0 (userBatch "a" 1), .publish 1] ++ opening 0 ++ [.consume, .tick,
    .enqueue 0 (userBatch "b" 2), .publish 2, .consume, .receive, .receive, .ack 1, .ack 0]

theorem acked_batches_were_applied_users :
    ∃ s, Machine.run (step usersRepository usersServer .fullSync "us") (initial (Store.empty String).tables)
        enqueueOnOnePod = some s ∧
      s.acked.map (·.lastEventID) = ["b", "a"] ∧
      ∀ batch ∈ s.acked, ∀ event ∈ received batch,
        applyAllowed .fullSync event.operation = true → event ∈ s.applied := by
  have ran : Machine.run (step usersRepository usersServer .fullSync "us")
      (initial (Store.empty String).tables) enqueueOnOnePod = some _ := rfl
  exact ⟨_, ran, by decide, acked_batches_were_applied (by decide) (by decide) ran⟩

end Transmogr.OutboxProtocol

import Mathlib.Algebra.Order.BigOperators.Group.List
import Transmogr.Changefeed
import Transmogr.Machine
import Transmogr.Outbox

/-! `HandleBatch` stages a batch for all peers at once: a goroutine for each peer cuts the events into
outbox batches, and only when all have succeeded are the changefeed cursors saved. -/
namespace Transmogr.Staging

/-- A call of `HandleBatch` that has something to stage. -/
structure Job where
  digest : Bytes → String
  cfg : ChangefeedConfig
  batch : ChangefeedBatch
  /-- Each goroutine has a peer of its own. -/
  distinct : cfg.peers.Nodup
  positive : 0 < cfg.maxBatchEvents
  allowed : handleBatchEvents digest cfg batch.changes ≠ []

namespace Job

def events (job : Job) : List ReplicationEvent := handleBatchEvents job.digest job.cfg job.batch.changes

def chunks (job : Job) : List (List ReplicationEvent) := enqueueChunks job.cfg job.events

/-- Polling batches share the sequence of their first table, transactions one of their own. -/
def tableKey (job : Job) : String :=
  if job.batch.txID = "" then (job.events.head?.map (·.table)).getD "" else ""

/-- The cursor after a change. -/
def cursorOf (job : Job) (change : ChangefeedChange) : ChangefeedCursor :=
  ⟨change.table, job.cfg.source, change.version, change.primaryKey⟩

def latestByTable (job : Job) : Std.ExtTreeMap String ChangefeedCursor :=
  job.batch.changes.foldl (fun latest change => latest.insert change.table (job.cursorOf change)) ∅

end Job

/-- Where the goroutine of a peer is in `enqueueBatch`. -/
inductive Worker where
  /-- Before `NextSequence` for the next chunk of these events. -/
  | allocating (events : List ReplicationEvent)
  /-- Before `Enqueue` of a chunk, with the events after it. -/
  | enqueueing (sequence : Nat) (chunk events : List ReplicationEvent)
  | finished (err : Option String)

namespace Worker

/-- The loop goes on while events are left. -/
def loop : List ReplicationEvent → Worker
  | [] => .finished none
  | event :: events => .allocating (event :: events)

def isFinished : Worker → Bool
  | .finished _ => true
  | _ => false

end Worker

inductive Phase where
  | staging
  /-- In `saveCursor`, with the tables whose cursors are still to be saved. -/
  | saving (left : List String)
  | returned (err : Option String)
  deriving DecidableEq

/-- `saveCursor` goes on while tables are left. -/
def Phase.loop : List String → Phase
  | [] => .returned none
  | table :: left => .saving (table :: left)

structure State where
  /-- `next_sequence` by peer and table key; zero where there is no row. -/
  sequences : String → String → Nat
  workers : String → Worker
  /-- The first error of the group. -/
  err : Option String
  /-- The batches passed to `Enqueue`, in the order of the calls. -/
  calls : List OutboxBatch
  /-- Those of them for which it returned nil. -/
  accepted : List OutboxBatch
  cursors : String → Option ChangefeedCursor
  phase : Phase

/-- A call that returns, with an error if one is given. Every call may fail at any time, so also
when the group has cancelled its context. -/
inductive Action where
  | nextSequence (peer : String) (failure : Option String)
  | enqueue (peer : String) (failure : Option String)
  /-- A sequence is taken by somebody else, or by a call that fails afterwards. -/
  | allocate (peer table : String)
  /-- `Wait` of the group. -/
  | wait
  /-- `SaveChangefeedCursor`, for the tables in any order. -/
  | saveCursor (table : String) (failure : Option String)

/-- The action is a call of `HandleBatch`. -/
def Action.own : Action → Bool
  | .allocate .. => false
  | _ => true

namespace State

def initial (job : Job) (sequences : String → String → Nat)
    (cursors : String → Option ChangefeedCursor) : State :=
  ⟨sequences, fun _ => .loop job.events, none, [], [], cursors, .staging⟩

def setWorker (s : State) (peer : String) (worker : Worker) : State :=
  { s with workers := Function.update s.workers peer worker }

/-- The goroutine of a peer returns an error; the group keeps the first. -/
def fail (s : State) (peer err : String) : State :=
  { s.setWorker peer (.finished (some err)) with
    err := s.err <|> some ("enqueue batch to " ++ peer ++ ": " ++ err) }

/-- `OutboxNextSequence` -/
def allocate (s : State) (peer table : String) : State :=
  { s with
    sequences := fun peer' table' =>
      if peer' = peer ∧ table' = table then s.sequences peer table + 1 else s.sequences peer' table' }

def call (s : State) (batch : OutboxBatch) : State := { s with calls := s.calls ++ [batch] }

def accept (s : State) (batch : OutboxBatch) : State := { s with accepted := s.accepted ++ [batch] }

end State

def outboxBatch (job : Job) (peer : String) (sequence : Nat) (chunk : List ReplicationEvent) :
    OutboxBatch where
  id := 0
  peerRegion := peer
  table := job.tableKey
  sequence := sequence
  events := chunk
  createdAt := 0
  txID := job.batch.txID

def step (job : Job) (s : State) (action : Action) : Option State :=
  match action, s.phase with
  | .allocate peer table, _ => some (s.allocate peer table)
  | .nextSequence peer failure, .staging =>
    if peer ∈ job.cfg.peers then
      match s.workers peer, failure with
      | .allocating _, some err => some (s.fail peer err)
      | .allocating events, none =>
        some ((s.allocate peer job.tableKey).setWorker peer
          (.enqueueing (s.sequences peer job.tableKey + 1) (events.take job.cfg.maxBatchEvents)
            (events.drop job.cfg.maxBatchEvents)))
      | _, _ => none
    else none
  | .enqueue peer failure, .staging =>
    if peer ∈ job.cfg.peers then
      match s.workers peer, failure with
      | .enqueueing sequence chunk _, some err =>
        some ((s.call (outboxBatch job peer sequence chunk)).fail peer err)
      | .enqueueing sequence chunk events, none =>
        let batch := outboxBatch job peer sequence chunk
        some (((s.call batch).accept batch).setWorker peer (.loop events))
      | _, _ => none
    else none
  | .wait, .staging =>
    if job.cfg.peers.all fun peer => (s.workers peer).isFinished then
      match s.err with
      | some err => some { s with phase := .returned (some err) }
      | none => some { s with phase := .loop job.latestByTable.keys }
    else none
  | .saveCursor table failure, .saving left =>
    if table ∈ left then
      match failure with
      | some err => some { s with
          phase := .returned (some ("save changefeed cursor for " ++ table ++ ": " ++ err)) }
      | none => some { s with
          cursors := Function.update s.cursors table job.latestByTable[table]?
          phase := .loop (left.erase table) }
    else none
  | _, _ => none

/-- What an action can do. -/
inductive Step (job : Job) (s : State) : Action → State → Prop where
  | allocate (peer table : String) : Step job s (.allocate peer table) (s.allocate peer table)
  | sequenceFailed {peer : String} {events : List ReplicationEvent} (err : String)
      (staging : s.phase = .staging) (mem : peer ∈ job.cfg.peers)
      (worker : s.workers peer = .allocating events) :
      Step job s (.nextSequence peer (some err)) (s.fail peer err)
  | sequenced {peer : String} {events : List ReplicationEvent} (staging : s.phase = .staging)
      (mem : peer ∈ job.cfg.peers) (worker : s.workers peer = .allocating events) :
      Step job s (.nextSequence peer none) ((s.allocate peer job.tableKey).setWorker peer
        (.enqueueing (s.sequences peer job.tableKey + 1) (events.take job.cfg.maxBatchEvents)
          (events.drop job.cfg.maxBatchEvents)))
  | enqueueFailed {peer : String} {sequence : Nat} {chunk events : List ReplicationEvent}
      (err : String) (staging : s.phase = .staging) (mem : peer ∈ job.cfg.peers)
      (worker : s.workers peer = .enqueueing sequence chunk events) :
      Step job s (.enqueue peer (some err))
        ((s.call (outboxBatch job peer sequence chunk)).fail peer err)
  | enqueued {peer : String} {sequence : Nat} {chunk events : List ReplicationEvent}
      (staging : s.phase = .staging) (mem : peer ∈ job.cfg.peers)
      (worker : s.workers peer = .enqueueing sequence chunk events) :
      Step job s (.enqueue peer none)
        (((s.call (outboxBatch job peer sequence chunk)).accept
          (outboxBatch job peer sequence chunk)).setWorker peer (.loop events))
  | waitFailed {err : String} (staging : s.phase = .staging) (failed : s.err = some err) :
      Step job s .wait { s with phase := .returned (some err) }
  | waited (staging : s.phase = .staging) (succeeded : s.err = none)
      (finished : ∀ peer ∈ job.cfg.peers, (s.workers peer).isFinished = true) :
      Step job s .wait { s with phase := .loop job.latestByTable.keys }
  | saveFailed {table : String} {left : List String} (err : String) (saving : s.phase = .saving left)
      (mem : table ∈ left) :
      Step job s (.saveCursor table (some err)) { s with
        phase := .returned (some ("save changefeed cursor for " ++ table ++ ": " ++ err)) }
  | saved {table : String} {left : List String} (saving : s.phase = .saving left)
      (mem : table ∈ left) :
      Step job s (.saveCursor table none) { s with
        cursors := Function.update s.cursors table job.latestByTable[table]?
        phase := .loop (left.erase table) }

theorem step_cases {job : Job} {s t : State} {action : Action} (taken : step job s action = some t) :
    Step job s action t := by
  unfold step at taken
  split at taken
  case h_1 peer table =>
    cases taken
    exact .allocate peer table
  case h_2 peer failure staging =>
    split at taken
    case isFalse => cases taken
    case isTrue mem =>
      split at taken
      case h_1 events err worker => cases taken; exact .sequenceFailed err staging mem worker
      case h_2 events worker => cases taken; exact .sequenced staging mem worker
      case h_3 => cases taken
  case h_3 peer failure staging =>
    split at taken
    case isFalse => cases taken
    case isTrue mem =>
      split at taken
      case h_1 sequence chunk events err worker => cases taken; exact .enqueueFailed err staging mem worker
      case h_2 sequence chunk events worker => cases taken; exact .enqueued staging mem worker
      case h_3 => cases taken
  case h_4 staging =>
    split at taken
    case isFalse => cases taken
    case isTrue finished =>
      split at taken
      case h_1 err failed => cases taken; exact .waitFailed staging failed
      case h_2 succeeded =>
        cases taken
        exact .waited staging succeeded (List.all_eq_true.mp finished)
  case h_5 table failure left saving =>
    split at taken
    case isFalse => cases taken
    case isTrue mem =>
      split at taken
      case h_1 err => cases taken; exact .saveFailed err saving mem
      case h_2 => cases taken; exact .saved saving mem
  case h_6 => cases taken

/-- What the batches passed to `Enqueue` for a peer, and those it accepted, are when its goroutine
has come this far. -/
def Books (job : Job) (counter : Nat) (passed accepted : List OutboxBatch) : Worker → Prop
  | .allocating events =>
    events ≠ [] ∧ passed.map (·.events) ++ enqueueChunks job.cfg events = job.chunks ∧ accepted = passed
  | .enqueueing sequence chunk events =>
    passed.map (·.events) ++ chunk :: enqueueChunks job.cfg events = job.chunks ∧
      accepted = passed ∧ sequence ≤ counter ∧ ∀ batch ∈ passed, batch.sequence < sequence
  | .finished none => passed.map (·.events) = job.chunks ∧ accepted = passed
  | .finished (some _) => passed.map (·.events) <+: job.chunks ∧ accepted <+: passed

structure Lane (job : Job) (counter : Nat) (worker : Worker) (passed accepted : List OutboxBatch) :
    Prop where
  labelled : ∀ batch ∈ passed, batch.table = job.tableKey ∧ batch.txID = job.batch.txID
  increasing : passed.Pairwise fun a b => a.sequence < b.sequence
  counted : ∀ batch ∈ passed, batch.sequence ≤ counter
  books : Books job counter passed accepted worker

namespace Lane

variable {job : Job} {counter sequence : Nat} {worker : Worker} {passed accepted : List OutboxBatch}
  {events chunk : List ReplicationEvent}

theorem mono (lane : Lane job counter worker passed accepted) {counter' : Nat}
    (more : counter ≤ counter') : Lane job counter' worker passed accepted where
  labelled := lane.labelled
  increasing := lane.increasing
  counted batch mem := Nat.le_trans (lane.counted batch mem) more
  books := by
    have books := lane.books
    cases worker with
    | allocating events => exact books
    | enqueueing sequence chunk events =>
      obtain ⟨split, same, bound, above⟩ := books
      exact ⟨split, same, Nat.le_trans bound more, above⟩
    | finished err => cases err <;> exact books

theorem start (job : Job) (counter : Nat) : Lane job counter (.loop job.events) [] [] where
  labelled := by simp
  increasing := .nil
  counted := by simp
  books := by
    cases all : job.events with
    | nil => exact absurd all job.allowed
    | cons event events => simp [Worker.loop, Books, Job.chunks, all]

/-- The first error leaves what was passed on before it. -/
theorem sequenceFailed (lane : Lane job counter (.allocating events) passed accepted) (err : String) :
    Lane job counter (.finished (some err)) passed accepted := by
  obtain ⟨_, split, rfl⟩ := lane.books
  exact { lane with books := ⟨⟨_, split⟩, List.prefix_rfl⟩ }

theorem sequenced (lane : Lane job counter (.allocating events) passed accepted) :
    Lane job (counter + 1) (.enqueueing (counter + 1) (events.take job.cfg.maxBatchEvents)
      (events.drop job.cfg.maxBatchEvents)) passed accepted := by
  obtain ⟨some_left, split, same⟩ := lane.books
  have later := lane.mono (Nat.le_succ counter)
  refine { later with books := ⟨?_, same, Nat.le_refl _, ?_⟩ }
  · cases events with
    | nil => exact absurd rfl some_left
    | cons event events =>
      rw [← split, enqueueChunks, enqueueChunks, Chunks.chunks_cons job.positive]
  · intro batch mem
    have := lane.counted batch mem
    omega

/-- A batch passed on carries the labels of the others and a sequence above theirs. -/
theorem passOn (lane : Lane job counter (.enqueueing sequence chunk events) passed accepted)
    (peer : String) {accepted' : List OutboxBatch} {worker' : Worker}
    (books : Books job counter (passed ++ [outboxBatch job peer sequence chunk]) accepted' worker') :
    Lane job counter worker' (passed ++ [outboxBatch job peer sequence chunk]) accepted' := by
  obtain ⟨_, _, bound, above⟩ := lane.books
  constructor
  · intro batch mem
    rcases List.mem_append.mp mem with earlier | last
    · exact lane.labelled batch earlier
    · rw [List.mem_singleton.mp last]
      exact ⟨rfl, rfl⟩
  · rw [List.pairwise_append]
    refine ⟨lane.increasing, List.pairwise_singleton _ _, ?_⟩
    intro batch mem last is_last
    rw [List.mem_singleton.mp is_last]
    exact above batch mem
  · intro batch mem
    rcases List.mem_append.mp mem with earlier | last
    · exact lane.counted batch earlier
    · rw [List.mem_singleton.mp last]
      exact bound
  · exact books

theorem enqueueFailed (lane : Lane job counter (.enqueueing sequence chunk events) passed accepted)
    (peer err : String) :
    Lane job counter (.finished (some err)) (passed ++ [outboxBatch job peer sequence chunk])
      accepted := by
  obtain ⟨split, same, _, _⟩ := lane.books
  apply lane.passOn
  constructor
  · exact ⟨enqueueChunks job.cfg events, by simp [outboxBatch, ← split]⟩
  · rw [same]
    exact List.prefix_append _ _

theorem enqueued (lane : Lane job counter (.enqueueing sequence chunk events) passed accepted)
    (peer : String) :
    Lane job counter (.loop events) (passed ++ [outboxBatch job peer sequence chunk])
      (accepted ++ [outboxBatch job peer sequence chunk]) := by
  obtain ⟨split, same, _, _⟩ := lane.books
  apply lane.passOn
  cases events with
  | nil =>
    constructor
    · rw [← split]
      simp [outboxBatch, enqueueChunks, Chunks.chunks, Chunks.cut]
    · rw [same]
  | cons event events =>
    refine ⟨List.cons_ne_nil _ _, ?_, by rw [same]⟩
    rw [← split]
    simp [outboxBatch]

/-- Wherever the goroutine is, it has passed on the first chunks. -/
theorem passed_first (lane : Lane job counter worker passed accepted) :
    passed.map (·.events) <+: job.chunks ∧ accepted <+: passed := by
  have books := lane.books
  cases worker with
  | allocating events =>
    obtain ⟨_, split, rfl⟩ := books
    exact ⟨⟨_, split⟩, List.prefix_rfl⟩
  | enqueueing sequence chunk events =>
    obtain ⟨split, rfl, _⟩ := books
    exact ⟨⟨_, split⟩, List.prefix_rfl⟩
  | finished err =>
    cases err with
    | none =>
      obtain ⟨all, rfl⟩ := books
      rw [all]
      exact ⟨List.prefix_rfl, List.prefix_rfl⟩
    | some err => exact books

end Lane

namespace State

/-- The batches passed to `Enqueue` for a peer. -/
def passed (s : State) (peer : String) : List OutboxBatch := s.calls.filter (·.peerRegion = peer)

def received (s : State) (peer : String) : List OutboxBatch := s.accepted.filter (·.peerRegion = peer)

/-- The lane of a peer. -/
def InLane (job : Job) (s : State) (peer : String) : Prop :=
  Lane job (s.sequences peer job.tableKey) (s.workers peer) (s.passed peer) (s.received peer)

end State

/-- The cursors of the batch are saved, except for the tables left. -/
def Saved (job : Job) (before cursors : String → Option ChangefeedCursor) (left : List String) : Prop :=
  ∀ table, cursors table =
    if table ∈ left then before table else job.latestByTable[table]? <|> before table

structure Complete (job : Job) (before : String → Option ChangefeedCursor) (s : State)
    (left : List String) : Prop where
  succeeded : s.err = none
  finished : ∀ peer ∈ job.cfg.peers, s.workers peer = .finished none
  saved : Saved job before s.cursors left

/-- What the phase says of the cursors. -/
def AtPhase (job : Job) (before : String → Option ChangefeedCursor) (s : State) : Phase → Prop
  | .staging => s.cursors = before
  | .saving left =>
    Complete job before s left ∧ left ≠ [] ∧ left.Nodup ∧ ∀ table ∈ left, table ∈ job.latestByTable
  | .returned none => Complete job before s []
  | .returned (some _) => s.err ≠ none → s.cursors = before

structure Staged (job : Job) (before : String → Option ChangefeedCursor) (s : State) : Prop where
  lanes : ∀ peer ∈ job.cfg.peers, s.InLane job peer
  /-- The group knows of every goroutine that failed. -/
  noticed : ∀ peer ∈ job.cfg.peers, ∀ err, s.workers peer = .finished (some err) → s.err ≠ none
  phase : AtPhase job before s s.phase

section Steps

variable {job : Job} {before : String → Option ChangefeedCursor} {s t : State} {peer : String}

theorem atPhase_loop {left : List String} (complete : Complete job before s left)
    (distinct : left.Nodup) (known : ∀ table ∈ left, table ∈ job.latestByTable) :
    AtPhase job before s (.loop left) := by
  cases left with
  | nil => exact complete
  | cons table left => exact ⟨complete, List.cons_ne_nil _ _, distinct, known⟩

theorem staged_initial (job : Job) (sequences : String → String → Nat)
    (before : String → Option ChangefeedCursor) :
    Staged job before (.initial job sequences before) where
  lanes peer _ := Lane.start job _
  noticed peer _ err failed := by
    cases all : job.events with
    | nil => exact absurd all job.allowed
    | cons event events => simp [State.initial, all, Worker.loop] at failed
  phase := rfl

/-- A step of one goroutine leaves the others where they are. -/
theorem Staged.update (staged : Staged job before s) (staging : s.phase = .staging)
    {worker worker' : Worker} (at_peer : s.workers peer = worker)
    (moved : t.workers = Function.update s.workers peer worker')
    (lane : Lane job (s.sequences peer job.tableKey) worker (s.passed peer) (s.received peer) →
      Lane job (t.sequences peer job.tableKey) worker' (t.passed peer) (t.received peer))
    (others : ∀ other, other ≠ peer → t.sequences other job.tableKey = s.sequences other job.tableKey ∧
      t.passed other = s.passed other ∧ t.received other = s.received other)
    (kept : s.err ≠ none → t.err ≠ none) (failed : ∀ err, worker' = .finished (some err) → t.err ≠ none)
    (rest : t.cursors = s.cursors ∧ t.phase = s.phase) : Staged job before t := by
  constructor
  · intro other inPeers
    have old := staged.lanes other inPeers
    rw [State.InLane] at old ⊢
    by_cases same : other = peer
    · rw [same, at_peer] at old
      rw [same, moved, Function.update_self]
      exact lane old
    · obtain ⟨sequences, passed, received⟩ := others other same
      rwa [sequences, passed, received, moved, Function.update_of_ne same]
  · intro other inPeers err at_other
    by_cases same : other = peer
    · rw [same, moved, Function.update_self] at at_other
      exact failed err at_other
    · rw [moved, Function.update_of_ne same] at at_other
      exact kept (staged.noticed other inPeers err at_other)
  · have unmoved := staged.phase
    rw [staging] at unmoved
    rw [rest.2, staging]
    exact rest.1.trans unmoved

theorem passed_call (s : State) (peer : String) (sequence : Nat) (chunk : List ReplicationEvent) :
    (s.call (outboxBatch job peer sequence chunk)).passed peer =
      s.passed peer ++ [outboxBatch job peer sequence chunk] := by
  simp [State.passed, State.call, outboxBatch]

theorem passed_call_of_ne (s : State) {other : String} (ne : other ≠ peer) (sequence : Nat)
    (chunk : List ReplicationEvent) :
    (s.call (outboxBatch job peer sequence chunk)).passed other = s.passed other := by
  simp [State.passed, State.call, outboxBatch, ne.symm]

theorem received_accept (s : State) (peer : String) (sequence : Nat) (chunk : List ReplicationEvent) :
    (s.accept (outboxBatch job peer sequence chunk)).received peer =
      s.received peer ++ [outboxBatch job peer sequence chunk] := by
  simp [State.received, State.accept, outboxBatch]

theorem received_accept_of_ne (s : State) {other : String} (ne : other ≠ peer) (sequence : Nat)
    (chunk : List ReplicationEvent) :
    (s.accept (outboxBatch job peer sequence chunk)).received other = s.received other := by
  simp [State.received, State.accept, outboxBatch, ne.symm]

theorem le_allocate (s : State) (peer table other table' : String) :
    s.sequences other table' ≤ (s.allocate peer table).sequences other table' := by
  simp only [State.allocate]
  split
  · rename_i same
    rw [same.1, same.2]
    omega
  · exact Nat.le_refl _

theorem Staged.allocate (staged : Staged job before s) (peer table : String) :
    Staged job before (s.allocate peer table) where
  lanes other mem := (staged.lanes other mem).mono (le_allocate s peer table other job.tableKey)
  noticed := staged.noticed
  phase := by
    have phase := staged.phase
    change AtPhase job before (s.allocate peer table) s.phase
    generalize s.phase = now at phase ⊢
    cases now with
    | staging => exact phase
    | saving left =>
      obtain ⟨complete, rest⟩ := phase
      exact ⟨⟨complete.succeeded, complete.finished, complete.saved⟩, rest⟩
    | returned err =>
      cases err with
      | none => exact ⟨phase.succeeded, phase.finished, phase.saved⟩
      | some err => exact phase

theorem err_fail (s : State) (peer err : String) : (s.fail peer err).err ≠ none := by
  simp only [State.fail]
  cases s.err <;> simp

/-- When all goroutines have finished without an error, all have passed on everything. -/
theorem Staged.waited (staged : Staged job before s) (staging : s.phase = .staging)
    (succeeded : s.err = none)
    (finished : ∀ peer ∈ job.cfg.peers, (s.workers peer).isFinished = true) :
    Staged job before { s with phase := .loop job.latestByTable.keys } := by
  have unmoved := staged.phase
  rw [staging] at unmoved
  refine ⟨staged.lanes, staged.noticed, atPhase_loop ⟨succeeded, ?_, ?_⟩ ?_ ?_⟩
  · intro peer mem
    have done := finished peer mem
    cases worker : s.workers peer with
    | allocating events => simp [worker, Worker.isFinished] at done
    | enqueueing sequence chunk events => simp [worker, Worker.isFinished] at done
    | finished err =>
      cases err with
      | none => rfl
      | some err => exact absurd succeeded (staged.noticed peer mem err worker)
  · intro table
    change s.cursors table = _
    rw [show s.cursors = before from unmoved]
    split
    · rfl
    · rename_i absent
      rw [Std.ExtTreeMap.mem_keys] at absent
      rw [Std.ExtTreeMap.getElem?_eq_none absent]
      rfl
  · simpa [List.Nodup] using job.latestByTable.distinct_keys
  · intro table mem
    exact Std.ExtTreeMap.mem_keys.mp mem

theorem Saved.save {cursors : String → Option ChangefeedCursor} {left : List String} {table : String}
    (saved : Saved job before cursors left) (distinct : left.Nodup)
    (known : table ∈ job.latestByTable) :
    Saved job before (Function.update cursors table job.latestByTable[table]?) (left.erase table) := by
  intro other
  by_cases same : other = table
  · rw [same, Function.update_self, if_neg distinct.not_mem_erase]
    cases latest : job.latestByTable[table]? with
    | none =>
      rw [Std.ExtTreeMap.mem_iff_isSome_getElem?, latest] at known
      cases known
    | some cursor => rfl
  · rw [Function.update_of_ne same, saved other]
    simp only [List.mem_erase_of_ne same]

theorem Staged.step {action : Action} (staged : Staged job before s) (taken : Step job s action t) :
    Staged job before t := by
  cases taken with
  | allocate peer table => exact staged.allocate peer table
  | sequenceFailed err staging _ worker =>
    exact staged.update staging worker rfl (·.sequenceFailed err) (fun _ _ => ⟨rfl, rfl, rfl⟩)
      (fun _ => err_fail s _ err) (fun _ _ => err_fail s _ err) ⟨rfl, rfl⟩
  | sequenced staging _ worker =>
    refine staged.update staging worker rfl ?_ ?_ id (fun _ => nofun) ⟨rfl, rfl⟩
    · intro lane
      simp only [State.setWorker, State.allocate, and_self, if_true]
      exact lane.sequenced
    · intro other ne
      exact ⟨by simp [State.setWorker, State.allocate, ne], rfl, rfl⟩
  | @enqueueFailed peer sequence chunk events err staging _ worker =>
    refine staged.update staging worker rfl ?_ ?_ (fun _ => err_fail _ _ err)
      (fun _ _ => err_fail _ _ err) ⟨rfl, rfl⟩
    · intro lane
      have failed := lane.enqueueFailed peer err
      rw [← passed_call] at failed
      exact failed
    · exact fun other ne => ⟨rfl, passed_call_of_ne s ne sequence chunk, rfl⟩
  | @enqueued peer sequence chunk events staging _ worker =>
    refine staged.update staging worker rfl ?_ ?_ id ?_ ⟨rfl, rfl⟩
    · intro lane
      have passedOn := lane.enqueued peer
      rw [← passed_call, ← received_accept] at passedOn
      exact passedOn
    · exact fun other ne =>
        ⟨rfl, passed_call_of_ne s ne sequence chunk, received_accept_of_ne s ne sequence chunk⟩
    · intro err failed
      cases events <;> simp [Worker.loop] at failed
  | waitFailed staging failed =>
    have unmoved := staged.phase
    rw [staging] at unmoved
    exact ⟨staged.lanes, staged.noticed, fun _ => unmoved⟩
  | waited staging succeeded finished => exact staged.waited staging succeeded finished
  | saveFailed err saving mem =>
    have phase := staged.phase
    rw [saving] at phase
    exact ⟨staged.lanes, staged.noticed, fun failed => absurd phase.1.succeeded failed⟩
  | @saved table left saving mem =>
    have phase := staged.phase
    rw [saving] at phase
    obtain ⟨complete, _, distinct, known⟩ := phase
    refine ⟨staged.lanes, staged.noticed, atPhase_loop ⟨complete.succeeded, complete.finished, ?_⟩ ?_ ?_⟩
    · exact complete.saved.save distinct (known table mem)
    · exact distinct.erase table
    · exact fun other mem => known other (List.mem_of_mem_erase mem)

end Steps

theorem run_staged {job : Job} {sequences : String → String → Nat}
    {before : String → Option ChangefeedCursor} {actions : List Action} {s : State}
    (ran : Machine.run (step job) (.initial job sequences before) actions = some s) :
    Staged job before s :=
  Machine.invariant_of_steps (fun _ _ _ staged taken => staged.step (step_cases taken))
    (staged_initial job sequences before) ran

/-- The calls a goroutine may still make. -/
def Worker.work : Worker → Nat
  | .allocating events => 2 * events.length
  | .enqueueing _ _ events => 2 * events.length + 1
  | .finished _ => 0

/-- The calls `HandleBatch` makes when the goroutines have finished. -/
def Phase.work (job : Job) : Phase → Nat
  | .staging => job.latestByTable.keys.length + 1
  | .saving left => left.length
  | .returned _ => 0

def State.work (job : Job) (s : State) : Nat :=
  (job.cfg.peers.map fun peer => (s.workers peer).work).sum + s.phase.work job

theorem work_workerLoop (events : List ReplicationEvent) :
    (Worker.loop events).work = 2 * events.length := by
  cases events <;> rfl

theorem work_phaseLoop (job : Job) (left : List String) : (Phase.loop left).work job = left.length := by
  cases left <;> rfl

section Work

variable {job : Job} {before : String → Option ChangefeedCursor} {s t : State} {peer : String}

theorem work_of_worker (mem : peer ∈ job.cfg.peers) {worker : Worker}
    (moved : t.workers = Function.update s.workers peer worker) (phase : t.phase = s.phase)
    (less : worker.work < (s.workers peer).work) : t.work job + 1 ≤ s.work job := by
  have sums : (job.cfg.peers.map fun peer => (t.workers peer).work).sum <
      (job.cfg.peers.map fun peer => (s.workers peer).work).sum := by
    apply List.sum_lt_sum
    · intro other _
      rw [moved]
      by_cases same : other = peer
      · rw [same, Function.update_self]
        exact less.le
      · rw [Function.update_of_ne same]
    · exact ⟨peer, mem, by rw [moved, Function.update_self]; exact less⟩
  rw [State.work, State.work, phase]
  omega

theorem work_of_phase (workers : t.workers = s.workers)
    (less : t.phase.work job < s.phase.work job) : t.work job + 1 ≤ s.work job := by
  rw [State.work, State.work, workers]
  omega

/-- Every call brings the return closer. -/
theorem work_step {action : Action} (staged : Staged job before s) (taken : Step job s action t) :
    t.work job + action.own.toNat ≤ s.work job := by
  cases taken with
  | allocate peer table => exact Nat.le_refl _
  | @sequenceFailed peer events err staging mem worker =>
    have lane := staged.lanes peer mem
    rw [State.InLane, worker] at lane
    have some_left := List.length_pos_of_ne_nil lane.books.1
    refine work_of_worker mem rfl rfl ?_
    simp only [worker, Worker.work]
    omega
  | @sequenced peer events staging mem worker =>
    have lane := staged.lanes peer mem
    rw [State.InLane, worker] at lane
    have some_left := List.length_pos_of_ne_nil lane.books.1
    have positive := job.positive
    refine work_of_worker mem rfl rfl ?_
    simp only [worker, Worker.work, List.length_drop]
    omega
  | enqueueFailed err staging mem worker =>
    refine work_of_worker mem rfl rfl ?_
    simp [worker, Worker.work]
  | enqueued staging mem worker =>
    refine work_of_worker mem rfl rfl ?_
    rw [work_workerLoop, worker, Worker.work]
    omega
  | waitFailed staging failed =>
    refine work_of_phase rfl ?_
    simp [staging, Phase.work]
  | waited staging succeeded finished =>
    refine work_of_phase rfl ?_
    change (Phase.loop _).work job < _
    rw [work_phaseLoop, staging, Phase.work]
    omega
  | saveFailed err saving mem =>
    refine work_of_phase rfl ?_
    simp [saving, Phase.work, List.length_pos_of_mem mem]
  | saved saving mem =>
    refine work_of_phase rfl ?_
    have := List.length_pos_of_mem mem
    change (Phase.loop _).work job < _
    rw [work_phaseLoop, saving, Phase.work, List.length_erase_of_mem mem]
    omega

theorem work_run {actions : List Action} (staged : Staged job before s)
    (ran : Machine.run (step job) s actions = some t) :
    t.work job + actions.countP Action.own ≤ s.work job :=
  Machine.countP_le_of_meets (fun _ _ _ staged _ taken => staged.step (step_cases taken))
    (fun _ _ _ staged _ taken => work_step staged (step_cases taken)) staged
    (Machine.meets_true s actions) ran

/-- Until `HandleBatch` has returned, one of its calls is under way. -/
theorem exists_call (staged : Staged job before s) (running : ∀ err, s.phase ≠ .returned err) :
    ∃ action, action.own = true ∧ (step job s action).isSome := by
  cases phase : s.phase with
  | returned err => exact absurd phase (running err)
  | saving left =>
    have here := staged.phase
    rw [phase] at here
    cases left with
    | nil => exact absurd rfl here.2.1
    | cons table left => exact ⟨.saveCursor table none, rfl, by simp [step, phase]⟩
  | staging =>
    by_cases finished : job.cfg.peers.all fun peer => (s.workers peer).isFinished
    · refine ⟨.wait, rfl, ?_⟩
      cases failed : s.err <;> simp [step, phase, finished, failed]
    · obtain ⟨peer, mem, unfinished⟩ : ∃ peer ∈ job.cfg.peers, (s.workers peer).isFinished = false := by
        simpa using finished
      cases worker : s.workers peer with
      | allocating events => exact ⟨.nextSequence peer none, rfl, by simp [step, phase, mem, worker]⟩
      | enqueueing sequence chunk events =>
        exact ⟨.enqueue peer none, rfl, by simp [step, phase, mem, worker]⟩
      | finished err => simp [worker, Worker.isFinished] at unfinished

end Work

/-- The cursor of a table is the position of its last change. -/
theorem getElem?_latestByTable (job : Job) (table : String) :
    job.latestByTable[table]? =
      (job.batch.changes.filter (·.table = table)).getLast?.map job.cursorOf := by
  rw [Job.latestByTable]
  induction job.batch.changes using List.reverseRecOn with
  | nil => simp
  | append_singleton changes change ih =>
    rw [List.foldl_append, List.foldl_cons, List.foldl_nil, Std.ExtTreeMap.getElem?_insert,
      List.filter_append, ih]
    by_cases same : change.table = table
    · simp [same]
    · simp [same]

/-- The staging of a peer fails with the action. -/
def Action.fails : Action → Bool
  | .nextSequence _ (some _) => true
  | .enqueue _ (some _) => true
  | _ => false

section Failure

variable {job : Job} {before : String → Option ChangefeedCursor} {s t : State}

theorem err_step {action : Action} (taken : Step job s action t)
    (failed : s.err ≠ none ∨ action.fails = true) : t.err ≠ none := by
  cases taken with
  | sequenceFailed err => exact err_fail s _ err
  | enqueueFailed err => exact err_fail _ _ err
  | _ => exact failed.resolve_right (by simp [Action.fails])

/-- The group never forgets a failure. -/
theorem err_run {actions : List Action} (ran : Machine.run (step job) s actions = some t)
    (failed : s.err ≠ none ∨ ∃ action ∈ actions, action.fails = true) : t.err ≠ none := by
  induction actions generalizing s with
  | nil =>
    cases ran
    exact failed.resolve_right (by simp)
  | cons action actions ih =>
    obtain ⟨next, taken, rest⟩ := Option.bind_eq_some_iff.mp ran
    apply ih rest
    rcases failed with earlier | ⟨failure, mem, fails⟩
    · exact .inl (err_step (step_cases taken) (.inl earlier))
    · rcases List.mem_cons.mp mem with rfl | later
      · exact .inl (err_step (step_cases taken) (.inr fails))
      · exact .inr ⟨failure, later, fails⟩

theorem Staged.of_err (staged : Staged job before s) (failed : s.err ≠ none) :
    s.cursors = before ∧ s.phase ≠ .returned none := by
  have phase := staged.phase
  generalize s.phase = now at phase ⊢
  cases now with
  | staging => exact ⟨phase, nofun⟩
  | saving left => exact absurd phase.1.succeeded failed
  | returned err =>
    cases err with
    | none => exact absurd phase.succeeded failed
    | some err => exact ⟨phase failed, by simp⟩

/-- A goroutine that has succeeded passed all events on. -/
theorem Lane.complete {counter : Nat} {passed accepted : List OutboxBatch}
    (lane : Lane job counter (.finished none) passed accepted) :
    (∀ batch ∈ passed, 1 ≤ batch.events.length ∧ batch.events.length ≤ job.cfg.maxBatchEvents ∧
        batch.txID = job.batch.txID ∧ batch.table = job.tableKey) ∧
      passed.Pairwise (fun a b => a.sequence < b.sequence) ∧
      passed.flatMap (·.events) = job.events ∧ accepted = passed := by
  obtain ⟨all, same⟩ := lane.books
  refine ⟨?_, lane.increasing, ?_, same⟩
  · intro batch mem
    have chunk : batch.events ∈ job.chunks := by
      rw [← all]
      exact List.mem_map_of_mem mem
    obtain ⟨table, txID⟩ := lane.labelled batch mem
    exact ⟨List.length_pos_of_ne_nil (Chunks.ne_nil_of_mem_chunks job.positive chunk),
      Chunks.length_le_of_mem_chunks chunk, txID, table⟩
  · rw [List.flatMap_def, all]
    exact Chunks.flatten_chunks job.positive job.events

theorem Saved.cursor {cursors : String → Option ChangefeedCursor} (saved : Saved job before cursors [])
    (table : String) :
    cursors table =
      ((job.batch.changes.filter (·.table = table)).getLast?.map job.cursorOf <|> before table) := by
  rw [saved table, getElem?_latestByTable]
  simp

end Failure

def insertOf (table value : String) (version : Int) : ChangefeedChange :=
  ⟨table, [⟨"id", .string, Json.utf8 value⟩], .insert, version, none⟩

/-- A transaction on two tables for two peers, one event in a batch. -/
def ordersJob : Job where
  digest _ := "event"
  cfg := ⟨"eu", "cdc", .fullSync, 1, ["us", "ap"]⟩
  batch := ⟨"0/A1", [insertOf "users" "1" 5, insertOf "orders" "2" 6]⟩
  distinct := by decide
  positive := by decide
  allowed := by simp [handleBatchEvents, insertOf, broadcastAllowed]

/-- The goroutines take turns, and somebody else takes a sequence in between. -/
def ordersCalls : List Action :=
  [.nextSequence "us" none, .nextSequence "ap" none, .enqueue "ap" none, .allocate "us" "",
    .enqueue "us" none, .nextSequence "us" none, .nextSequence "ap" none, .enqueue "us" none,
    .enqueue "ap" none, .wait, .saveCursor "users" none, .saveCursor "orders" none]

end Transmogr.Staging

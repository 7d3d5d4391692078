import Mathlib.Data.List.Sort
import Transmogr.Apply

/-! The outbox of `service/outbox` and `repository/postgres/outbox.go`, and one
`Consume` session of `transport/grpc/server/handlers.go` reading it. Times are
ticks of the database clock; 0 is the zero time. -/
namespace Transmogr

structure OutboxBatch where
  id : Nat
  peerRegion : String
  table : String
  sequence : Nat
  events : List ReplicationEvent
  createdAt : Nat
  txID : String
  deriving DecidableEq

namespace OutboxBatch

def lastEventID (batch : OutboxBatch) : String := (batch.events.getLast?.map (·.eventID)).getD ""

def validate (batch : OutboxBatch) : Except String Unit :=
  if batch.peerRegion = "" then .error "outbox peer region is required"
  else if batch.sequence = 0 then .error "outbox sequence must be positive"
  else if batch.events = [] then .error "outbox batch must contain at least one event"
  else if batch.lastEventID = "" then .error "outbox batch last event id is required"
  else .ok ()

/-- The row `OutboxEnqueue` inserts: the id sequence and `NOW()` fill it in. -/
def stamped (batch : OutboxBatch) (id now : Nat) : OutboxBatch := { batch with id, createdAt := now }

/-- `UNIQUE (peer_region, table_name, last_event_id)` -/
def conflicts (a b : OutboxBatch) : Bool :=
  a.peerRegion = b.peerRegion ∧ a.table = b.table ∧ a.lastEventID = b.lastEventID

end OutboxBatch

/-- `ON CONFLICT DO NOTHING`: `none` if nothing was inserted. -/
def insertPending (rows : List OutboxBatch) (batch : OutboxBatch) : Option (List OutboxBatch) :=
  if rows.any (·.conflicts batch) then none else some (rows ++ [batch])

/-- `OutboxAck` -/
def ackPending (rows : List OutboxBatch) (peerRegion table lastEventID : String) :
    List OutboxBatch :=
  rows.filter fun b => ¬ (b.peerRegion = peerRegion ∧ b.table = table ∧ b.lastEventID = lastEventID)

/-- A zero bound is left out of the query. -/
def inWindow (window : Nat × Nat) (batch : OutboxBatch) : Bool :=
  (window.1 = 0 ∨ window.1 < batch.createdAt) ∧ (window.2 = 0 ∨ batch.createdAt ≤ window.2)

def defaultReplayPageSize : Nat := 256

/-- The rows a window still has after an id. -/
def pendingWindow (rows : List OutboxBatch) (peerRegion : String) (window : Nat × Nat)
    (afterID : Nat) : List OutboxBatch :=
  rows.filter fun b => b.peerRegion = peerRegion ∧ afterID < b.id ∧ inWindow window b

/-- `OutboxListPendingWindow` -/
def listPendingWindow (rows : List OutboxBatch) (peerRegion : String) (window : Nat × Nat)
    (afterID limit : Nat) : List OutboxBatch :=
  ((pendingWindow rows peerRegion window afterID).insertionSort fun a b => a.id ≤ b.id).take
    (if limit = 0 then defaultReplayPageSize else limit)

def liveReplicationBufferSize : Nat := 128

def replayPendingPageSize : Nat := 256

/-- Where a session stands in `Consume`. -/
inductive Stage where
  | opened
  | snapshotted (snapshotWatermark : Nat)
  | subscribed (snapshotWatermark : Nat)
  | replaying (windows : List (Nat × Nat)) (afterID liveWatermark : Nat)
  | forwarding (liveWatermark : Nat)
  deriving DecidableEq

/-- A session with its live channel and its send queue, oldest batch first. -/
structure Consume where
  peerRegion : String
  snapshotRequested : Bool
  stage : Stage
  channel : List OutboxBatch
  queue : List OutboxBatch

namespace Consume

def start (peerRegion : String) (snapshotRequested : Bool) : Consume :=
  ⟨peerRegion, snapshotRequested, .opened, [], []⟩

def isSubscribed (c : Consume) : Bool :=
  match c.stage with
  | .opened | .snapshotted _ => false
  | _ => true

/-- `publishLive` to the session's channel: a full channel drops the batch. -/
def publish (c : Consume) (batch : OutboxBatch) : Consume :=
  if batch.peerRegion = c.peerRegion ∧ c.isSubscribed ∧ c.channel.length < liveReplicationBufferSize
  then { c with channel := c.channel ++ [batch] }
  else c

section Publish

variable (c : Consume) (batch : OutboxBatch)

@[simp] theorem publish_peerRegion : (c.publish batch).peerRegion = c.peerRegion := by
  unfold publish; split <;> rfl

@[simp] theorem publish_snapshotRequested :
    (c.publish batch).snapshotRequested = c.snapshotRequested := by
  unfold publish; split <;> rfl

@[simp] theorem publish_stage : (c.publish batch).stage = c.stage := by
  unfold publish; split <;> rfl

@[simp] theorem publish_queue : (c.publish batch).queue = c.queue := by
  unfold publish; split <;> rfl

end Publish

/-- The replay windows of a session. -/
def windows (c : Consume) (snapshotWatermark liveWatermark : Nat) : List (Nat × Nat) :=
  if c.snapshotRequested then [(0, snapshotWatermark), (snapshotWatermark, liveWatermark)]
  else [(0, liveWatermark)]

/-- The next thing `Consume` does when the clock shows `now`; `none` while it
waits for its live channel. A page is read and queued as a whole. -/
def advance (c : Consume) (now : Nat) (rows : List OutboxBatch) : Option Consume :=
  match c.stage with
  | .opened => some { c with stage := .snapshotted (if c.snapshotRequested then now else 0) }
  | .snapshotted w => some { c with stage := .subscribed w }
  | .subscribed w => some { c with stage := .replaying (c.windows w now) 0 now }
  | .replaying [] _ live => some { c with stage := .forwarding live }
  | .replaying (window :: windows) afterID live =>
    match (listPendingWindow rows c.peerRegion window afterID replayPendingPageSize).getLast? with
    | none => some { c with stage := .replaying windows 0 live }
    | some last => some { c with
        stage := .replaying (window :: windows) last.id live
        queue := c.queue ++ listPendingWindow rows c.peerRegion window afterID replayPendingPageSize }
  | .forwarding live =>
    match c.channel with
    | [] => none
    | batch :: channel =>
      if batch.createdAt ≠ 0 ∧ batch.createdAt ≤ live then some { c with channel }
      else some { c with channel, queue := c.queue ++ [batch] }

/-- A step keeps the peer and the request, and only takes from the channel. -/
theorem advance_frame {c c' : Consume} {now : Nat} {rows : List OutboxBatch}
    (taken : c.advance now rows = some c') :
    c'.peerRegion = c.peerRegion ∧ c'.snapshotRequested = c.snapshotRequested ∧
      ∀ b ∈ c'.channel, b ∈ c.channel := by
  unfold advance at taken
  split at taken
  · cases taken; exact ⟨rfl, rfl, fun _ mem => mem⟩
  · cases taken; exact ⟨rfl, rfl, fun _ mem => mem⟩
  · cases taken; exact ⟨rfl, rfl, fun _ mem => mem⟩
  · cases taken; exact ⟨rfl, rfl, fun _ mem => mem⟩
  · split at taken <;> cases taken <;> exact ⟨rfl, rfl, fun _ mem => mem⟩
  · split at taken
    · cases taken
    · next batch channel rest =>
      split at taken <;> cases taken <;>
        exact ⟨rfl, rfl, fun b mem => rest ▸ List.mem_cons_of_mem batch mem⟩

end Consume

/-- A batch for region `us` with one user of region `eu`. -/
def userBatch (id : String) (version : Int) : OutboxBatch :=
  ⟨0, "us", "users", 1, [{ userEvent "eu" id version "ann" with eventID := id }], 0, ""⟩

end Transmogr

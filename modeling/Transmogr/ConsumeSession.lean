import Mathlib.Logic.Function.Basic
import Transmogr.Bootstrap
import Transmogr.EncryptedFields
import Transmogr.Ownership
import Transmogr.Stateful

/-! The receiving end of a consume session (`client/recv.go`, `snapshot/service.go`): the
messages of the peer's feed are decoded, sent through the inbound pipeline and applied. -/
namespace Transmogr

open Json (Values)
open Sql Stateful Bootstrap

/-- What a node brings to its sessions. -/
structure Receiver (V J : Type) where
  localRegion : String
  repo : Repository
  server : Server V
  mode : ReplicationApplyMode
  json : Values J
  classes : CharClasses
  crypto : CryptoService

structure AckRequest where
  region : String
  table : String
  lastEventID : String
  deriving DecidableEq, Repr

/-- Sequence numbers and transaction ids are left out: the receiver does not read them. -/
inductive ConsumeResponse
  | handshake (handshake : HandshakeMessage)
  | snapshotChunk (table : String) (rows : List ProtoSnapshotRow) (lastChunk : Bool)
      (watermark : Option Nat)
  | snapshotComplete (table : String)
  | eventBatch (events : List MetaProtoEvent)
  | transactionBatch (events : List MetaProtoEvent)
  | heartbeat

/-- The events of a batch name the region as their origin. -/
def ConsumeResponse.AttributedTo (region : String) : ConsumeResponse → Prop
  | .eventBatch events | .transactionBatch events => ∀ event ∈ events, event.originRegion = region
  | _ => True

def lastProtoEventID (events : List MetaProtoEvent) : String :=
  (events.getLast?.map (·.eventId)).getD ""

/-- The receiver's database: rows and cursors, and the snapshot jobs by peer region. -/
structure Database (V : Type) where
  store : Store V
  jobs : String → Jobs PrimaryKey

/-- The random bytes of one message, by event or row and field. -/
abbrev MessageRandom := Nat → String → Random

namespace Receiver

variable {V J : Type} [DecidableEq V] (receiver : Receiver V J)

def decodeEvents (random : MessageRandom) (events : List MetaProtoEvent) :
    Except String (List ReplicationEvent) := do
  let events ← toReplicationMetaEvents events
  let events ← prepareInboundEvents receiver.classes receiver.crypto random events
  return events.map (·.toReplicationEvent)

/-- The ack names the table of the first event. -/
def handleEventBatch (random : MessageRandom) (events : List MetaProtoEvent) (store : Store V) :
    Except String (AckRequest × Store V) := do
  let decoded ← receiver.decodeEvents random events
  let store ← applyEventBatch receiver.repo receiver.server receiver.mode decoded store
  let ackTable := (decoded.head?.map (·.table)).getD ""
  return (⟨receiver.localRegion, ackTable, lastProtoEventID events⟩, store)

def handleTransactionBatch (random : MessageRandom) (events : List MetaProtoEvent)
    (store : Store V) : Except String (AckRequest × Store V) := do
  let decoded ← receiver.decodeEvents random events
  let store ← applyTransactionBatch receiver.repo receiver.server receiver.mode decoded store
  return (⟨receiver.localRegion, "", lastProtoEventID events⟩, store)

/-- A statement on the jobs of one peer. -/
def onJobs {α : Type} (peerRegion : String) (f : Jobs PrimaryKey → α × Jobs PrimaryKey) :
    EStateM String (Database V) α :=
  transact fun db =>
    let (a, jobs) := f (db.jobs peerRegion)
    .ok (a, { db with jobs := Function.update db.jobs peerRegion jobs })

def requireNames (peerRegion table : String) : Except String Unit :=
  if peerRegion = "" then .error "snapshot peer region is required"
  else if table = "" then .error "snapshot table is required"
  else .ok ()

/-- An empty key is stored as `NULL`. -/
def encodedKey (key : PrimaryKey) : Option PrimaryKey := if key = [] then none else some (storedKey key)

def commitCheckpoint (peerRegion table : String) (status : SnapshotJobStatus) (key : PrimaryKey)
    (watermark : Option Nat) : EStateM String (Database V) Bool :=
  onJobs peerRegion fun jobs =>
    let (jobs, updated) := commitStateSnapshotCheckpoint jobs table status (encodedKey key) watermark
    (updated, jobs)

def saveCheckpoint (peerRegion table : String) (key : PrimaryKey) (watermark : Option Nat) :
    EStateM String (Database V) Bool := do
  attempt (requireNames peerRegion table)
  commitCheckpoint peerRegion table .snapshotting key watermark

def ensureRequested (peerRegion table : String) : EStateM String (Database V) Unit := do
  attempt (requireNames peerRegion table)
  onJobs peerRegion fun jobs => ((), upsertStateSnapshotJob jobs table .pending none none)

def applyRows (peerRegion table : String) (rows : List SnapshotRow) :
    EStateM String (Database V) Unit :=
  transact fun db => do
    let tables ← applySnapshotChunk receiver.repo receiver.server peerRegion table rows db.store.tables
    return ((), { db with store := { db.store with tables } })

/-- A finished job is reset, so that this snapshot can proceed. -/
def checkpoint (peerRegion table : String) (key : PrimaryKey) (watermark : Option Nat) :
    EStateM String (Database V) Unit := do
  let updated ← saveCheckpoint peerRegion table key watermark
  if updated then pure ()
  else
    ensureRequested peerRegion table
    let _ ← saveCheckpoint peerRegion table key watermark

/-- `ApplyIncomingChunk`: the rows, their checkpoint and the status are separate
transactions. -/
def applyIncomingChunk (peerRegion table : String) (rows : List SnapshotRow) (last : Bool)
    (watermark : Option Nat) : EStateM String (Database V) Unit :=
  match rows.getLast? with
  | some row => do
    receiver.applyRows peerRegion table rows
    checkpoint peerRegion table row.primaryKey watermark
    if last then
      let _ ← commitCheckpoint peerRegion table .catchingUp row.primaryKey watermark
    else pure ()
  | none =>
    if last then do
      let existing ← onJobs peerRegion fun jobs =>
        ((getStateSnapshotJob jobs table).lastPrimaryKey, jobs)
      onJobs peerRegion fun jobs =>
        ((), upsertStateSnapshotJob jobs table .catchingUp existing watermark)
    else pure ()

def completeIncomingSnapshot (peerRegion table : String) : EStateM String (Database V) Unit := do
  attempt (requireNames peerRegion table)
  onJobs peerRegion fun jobs => ((), markStateSnapshotFinished jobs table)

/-! ## The loop -/

/-- A batch is one transaction; the ack is sent when it has committed. -/
def onStore {α : Type} (f : Store V → Except String (α × Store V)) : EStateM String (Database V) α :=
  transact fun db => do
    let (a, store) ← f db.store
    return (a, { db with store })

/-- One message after the handshake. The handshake's own region is not looked at. -/
def dispatch (peerRegion : String) (localHandshake : HandshakeMessage) (random : MessageRandom) :
    ConsumeResponse → EStateM String (Database V) (Option AckRequest)
  | .handshake remote => do
    attempt (checkHandshakeCompatibility localHandshake remote)
    return none
  | .snapshotChunk table rows lastChunk watermark => do
    let rows ← attempt (toSnapshotRows receiver.json rows)
    let rows ← attempt (prepareInboundSnapshotRows receiver.json receiver.classes receiver.crypto random
      table rows)
    receiver.applyIncomingChunk peerRegion table (rows.map (·.toSnapshotRow)) lastChunk watermark
    return none
  | .snapshotComplete table => do
    completeIncomingSnapshot peerRegion table
    return none
  | .eventBatch events => do
    let ack ← onStore (receiver.handleEventBatch random events)
    return some ack
  | .transactionBatch events => do
    let ack ← onStore (receiver.handleTransactionBatch random events)
    return some ack
  | .heartbeat => return none

/-- `recvLoop`: what comes before the server's handshake is dropped, and the first error ends
the loop. The result are the acks that were sent; an ack that fails ends the loop as the end
of the stream does. -/
def recvLoop (peerRegion : String) (localHandshake : HandshakeMessage) :
    Bool → List (ConsumeResponse × MessageRandom) → EStateM String (Database V) (List AckRequest)
  | _, [] => return []
  | true, (message, random) :: messages => do
    let ack ← receiver.dispatch peerRegion localHandshake random message
    let acks ← recvLoop peerRegion localHandshake true messages
    return ack.toList ++ acks
  | false, (.handshake remote, random) :: messages => do
    let _ ← receiver.dispatch peerRegion localHandshake random (.handshake remote)
    recvLoop peerRegion localHandshake true messages
  | false, _ :: messages => recvLoop peerRegion localHandshake false messages

section Within

variable {receiver} {peerRegion : String}

/-- Rows that belong to the peer or to no one may change, and so may the cursors and the
snapshot jobs of the peer. -/
structure WithinPeer (receiver : Receiver V J) (peerRegion : String) (before after : Database V) :
    Prop where
  tables : KeepsForeign receiver.repo receiver.server peerRegion before.store.tables after.store.tables
  cursors : ∀ region, region ≠ peerRegion → after.store.cursors region = before.store.cursors region
  jobs : ∀ region, region ≠ peerRegion → after.jobs region = before.jobs region

omit [DecidableEq V] in
theorem WithinPeer.refl (db : Database V) : WithinPeer receiver peerRegion db db :=
  ⟨.refl _, fun _ _ => rfl, fun _ _ => rfl⟩

omit [DecidableEq V] in
theorem WithinPeer.trans (first second third : Database V)
    (before : WithinPeer receiver peerRegion first second)
    (after : WithinPeer receiver peerRegion second third) : WithinPeer receiver peerRegion first third :=
  ⟨before.tables.trans after.tables,
    fun region other => (after.cursors region other).trans (before.cursors region other),
    fun region other => (after.jobs region other).trans (before.jobs region other)⟩

theorem lockCursors_other {events : List ReplicationEvent} {region : String} (cursors : Cursors)
    (attributed : ∀ event ∈ events, event.peerRegion = peerRegion) (other : region ≠ peerRegion) :
    lockCursors cursors events region = cursors region := by
  induction events generalizing cursors with
  | nil => rfl
  | cons event events ih =>
    obtain ⟨rfl, rest⟩ := List.forall_mem_cons.mp attributed
    refine (ih _ rest).trans ?_
    funext table
    exact if_neg fun same => other same.1

theorem saveFinalCursors_other {events : List ReplicationEvent} {region : String} (cursors : Cursors)
    (attributed : ∀ event ∈ events, event.peerRegion = peerRegion) (other : region ≠ peerRegion) :
    saveFinalCursors cursors events region = cursors region := by
  induction events generalizing cursors with
  | nil => rfl
  | cons event events ih =>
    obtain ⟨rfl, rest⟩ := List.forall_mem_cons.mp attributed
    refine (ih _ rest).trans ?_
    funext table
    exact if_neg fun same => other same.1

theorem applyBatch_cursors {kind : BatchKind} {events : List ReplicationEvent} {store next : Store V}
    (attributed : ∀ event ∈ events, event.peerRegion = peerRegion)
    (ran : applyBatch receiver.repo receiver.server receiver.mode kind events store = .ok next)
    {region : String} (other : region ≠ peerRegion) : next.cursors region = store.cursors region := by
  obtain ⟨prepared, prepare, committed⟩ := applyBatch_eq_ok.mp ran
  split at committed
  · rw [committed]
  · obtain ⟨tables, -, rfl⟩ := commit_eq_ok.mp committed
    have ordered : ∀ event ∈ commitOrder kind prepared, event.peerRegion = peerRegion := fun event mem => by
      obtain ⟨original, sent, rfl⟩ := prepareEvents_mem prepare (mem_commitOrder.mp mem)
      rw [defaultOperation_peerRegion]
      exact attributed original sent
    refine (saveFinalCursors_other _ (fun event mem => ?_) other).trans
      (lockCursors_other _ ordered other)
    exact ordered event ((filterStale_sublist _ _).subset mem)

/-- What decoding and the inbound pipeline keep of an event. -/
structure Identified (sent : MetaProtoEvent) (event : ReplicationEvent) : Prop where
  peerRegion : event.peerRegion = sent.originRegion
  table : event.table = sent.table
  eventID : event.eventID = sent.eventId

theorem identified_of_way {sent : MetaProtoEvent} {received arrived final : MetaEvent}
    {crypto : CryptoService} {classes : CharClasses} {random : String → Random}
    (decodes : (do
      let decoded ← toReplicationEvent sent.toProtoEvent
      return ⟨decoded, sent.metadata⟩ : Except String MetaEvent) = .ok received)
    (prepares : prepareInboundEvent crypto random received = .ok arrived)
    (drops : dropEventMetadata classes arrived = .ok final) :
    Identified sent final.toReplicationEvent := by
  obtain ⟨decoded, decodes, made⟩ := Fallible.bind_eq_ok.mp decodes
  obtain ⟨metadata, -, dropped⟩ := Fallible.bind_eq_ok.mp drops
  cases made
  cases dropped
  have same : Identified sent decoded := by
    unfold toReplicationEvent at decodes
    split at decodes
    · cases decodes
    · cases decodes
      exact ⟨rfl, rfl, rfl⟩
  unfold prepareInboundEvent at prepares
  split at prepares
  · cases prepares
    exact same
  · obtain ⟨result, -, prepares⟩ := Fallible.bind_eq_ok.mp prepares
    cases prepares
    exact ⟨same.peerRegion, same.table, same.eventID⟩

omit [DecidableEq V] in
theorem decodeEvents_identified {random : MessageRandom} {events : List MetaProtoEvent}
    {decoded : List ReplicationEvent} (ran : receiver.decodeEvents random events = .ok decoded) :
    List.Forall₂ Identified events decoded := by
  obtain ⟨received, decodes, ran⟩ := Fallible.bind_eq_ok.mp ran
  obtain ⟨final, prepares, ran⟩ := Fallible.bind_eq_ok.mp ran
  obtain ⟨restored, restores, drops⟩ := Fallible.bind_eq_ok.mp prepares
  cases ran
  rw [← List.map_id received] at restores
  have ways := Fallible.mapM_carried
    (fun index => prepareInboundEvent receiver.crypto (random index)) decodes restores drops
  refine List.forall₂_map_right_iff.mpr (ways.imp ?_)
  rintro sent event ⟨_, _, _, decodes, prepares, drops⟩
  exact identified_of_way decodes prepares drops

omit [DecidableEq V] in
theorem decodeEvents_attributed {random : MessageRandom} {events : List MetaProtoEvent}
    {decoded : List ReplicationEvent} (ran : receiver.decodeEvents random events = .ok decoded)
    (attributed : ∀ event ∈ events, event.originRegion = peerRegion) :
    ∀ event ∈ decoded, event.peerRegion = peerRegion := by
  have both := (List.forall₂_and_left _ _).mpr ⟨attributed, decodeEvents_identified ran⟩
  intro event mem
  obtain ⟨i, inside, rfl⟩ := List.mem_iff_getElem.mp mem
  obtain ⟨length, each⟩ := List.forall₂_iff_get.mp both
  obtain ⟨origin, same⟩ := each i (length ▸ inside) inside
  exact same.peerRegion.trans origin

section Programs

variable {table : String} {watermark : Option Nat}

omit [DecidableEq V] in
theorem onJobs_within {α : Type} (f : Jobs PrimaryKey → α × Jobs PrimaryKey) :
    Within (WithinPeer receiver peerRegion) (onJobs (V := V) peerRegion f) := by
  refine .transact .refl fun db a next ran => ?_
  cases ran
  exact ⟨.refl _, fun _ _ => rfl, fun region other => Function.update_of_ne other ..⟩

omit [DecidableEq V] in
theorem required_within {α : Type} {prog : EStateM String (Database V) α}
    (within : Within (WithinPeer receiver peerRegion) prog) :
    Within (WithinPeer receiver peerRegion) (do attempt (requireNames peerRegion table); prog) :=
  .attempt_bind .refl fun _ _ => within

omit [DecidableEq V] in
theorem checkpoint_within (key : PrimaryKey) :
    Within (WithinPeer receiver peerRegion) (checkpoint (V := V) peerRegion table key watermark) := by
  have saves : Within (WithinPeer receiver peerRegion)
      (saveCheckpoint (V := V) peerRegion table key watermark) := required_within (onJobs_within _)
  refine .bind .trans saves fun updated => ?_
  cases updated with
  | true => exact .pure .refl _
  | false =>
    refine .bind .trans (required_within (onJobs_within _)) fun _ => ?_
    exact .bind .trans saves fun _ => .pure .refl _

variable (reads : ReadsRegion receiver.repo receiver.server peerRegion) (known : peerRegion ≠ "")

include reads known

theorem applyRows_within {rows : List SnapshotRow} :
    Within (WithinPeer receiver peerRegion) (receiver.applyRows peerRegion table rows) := by
  refine .transact .refl fun db a next ran => ?_
  obtain ⟨tables, applied, ran⟩ := Fallible.bind_eq_ok.mp ran
  cases ran
  exact ⟨applySnapshotChunk_keepsForeign reads known applied, fun _ _ => rfl, fun _ _ => rfl⟩

theorem applyIncomingChunk_within {rows : List SnapshotRow} {last : Bool} :
    Within (WithinPeer receiver peerRegion)
      (receiver.applyIncomingChunk peerRegion table rows last watermark) := by
  unfold applyIncomingChunk
  split
  · refine .bind .trans (applyRows_within reads known) fun _ => ?_
    refine .bind .trans (checkpoint_within _) fun _ => ?_
    split
    · exact .bind .trans (onJobs_within _) fun _ => .pure .refl _
    · exact .pure .refl _
  · split
    · exact .bind .trans (onJobs_within _) fun _ => onJobs_within _
    · exact .pure .refl _

theorem onStore_within {α : Type} {kind : BatchKind} {random : MessageRandom}
    {events : List MetaProtoEvent} {f : Store V → Except String (α × Store V)}
    (attributed : ∀ event ∈ events, event.originRegion = peerRegion)
    (applies : ∀ store a next, f store = .ok (a, next) → ∃ decoded,
      receiver.decodeEvents random events = .ok decoded ∧
      applyBatch receiver.repo receiver.server receiver.mode kind decoded store = .ok next) :
    Within (WithinPeer receiver peerRegion) (onStore f) := by
  refine .transact .refl fun db a next ran => ?_
  obtain ⟨⟨a', store⟩, handled, made⟩ := Fallible.bind_eq_ok.mp ran
  cases made
  obtain ⟨decoded, decodes, applied⟩ := applies db.store a store handled
  have origin := decodeEvents_attributed decodes attributed
  let decodedBatch : Batch := ⟨kind, decoded⟩
  exact ⟨@applyBatch_keepsForeign _ _ _ _ _ _ decodedBatch _ _ reads known origin applied,
    fun region other => applyBatch_cursors origin applied other, fun _ _ => rfl⟩

theorem dispatch_within {localHandshake : HandshakeMessage} {random : MessageRandom}
    {message : ConsumeResponse} (attributed : message.AttributedTo peerRegion) :
    Within (WithinPeer receiver peerRegion)
      (receiver.dispatch peerRegion localHandshake random message) := by
  cases message with
  | handshake remote => exact .attempt_bind .refl fun _ _ => .pure .refl _
  | snapshotChunk table rows lastChunk watermark =>
    refine .attempt_bind .refl fun _ _ => .attempt_bind .refl fun _ _ => ?_
    exact .bind .trans (applyIncomingChunk_within reads known) fun _ => .pure .refl _
  | snapshotComplete table =>
    exact .bind .trans (required_within (onJobs_within _)) fun _ => .pure .refl _
  | eventBatch events =>
    refine .bind .trans (@onStore_within _ _ _ _ _ reads known _ .eventBatch random _ _ attributed ?_)
      fun _ => .pure .refl _
    intro store ack next ran
    obtain ⟨decoded, decodes, ran⟩ := Fallible.bind_eq_ok.mp ran
    obtain ⟨applied, applies, ran⟩ := Fallible.bind_eq_ok.mp ran
    cases ran
    exact ⟨decoded, decodes, applies⟩
  | transactionBatch events =>
    refine .bind .trans
      (@onStore_within _ _ _ _ _ reads known _ .transactionBatch random _ _ attributed ?_)
      fun _ => .pure .refl _
    intro store ack next ran
    obtain ⟨decoded, decodes, ran⟩ := Fallible.bind_eq_ok.mp ran
    obtain ⟨applied, applies, ran⟩ := Fallible.bind_eq_ok.mp ran
    cases ran
    exact ⟨decoded, decodes, applies⟩
  | heartbeat => exact .pure .refl _

theorem recvLoop_within {localHandshake : HandshakeMessage} {handshakeReceived : Bool}
    {messages : List (ConsumeResponse × MessageRandom)}
    (attributed : ∀ message ∈ messages, message.1.AttributedTo peerRegion) :
    Within (WithinPeer receiver peerRegion)
      (receiver.recvLoop peerRegion localHandshake handshakeReceived messages) := by
  induction messages generalizing handshakeReceived with
  | nil => cases handshakeReceived <;> exact .pure .refl _
  | cons message messages ih =>
    obtain ⟨head, rest⟩ := List.forall_mem_cons.mp attributed
    cases handshakeReceived with
    | true =>
      refine .bind .trans (dispatch_within reads known head) fun _ => ?_
      exact .bind .trans (ih rest) fun _ => .pure .refl _
    | false =>
      obtain ⟨message, random⟩ := message
      cases message with
      | handshake remote => exact .bind .trans (dispatch_within reads known head) fun _ => ih rest
      | snapshotChunk | snapshotComplete | eventBatch | transactionBatch | heartbeat => exact ih rest

end Programs

end Within

end Receiver

/-- A consume session affects the data of its peer only: where every event names the peer as
its origin, the rows of other owners stay as they are, and so do the cursors and snapshot
jobs of other regions. -/
theorem session_stays_within_peer {V J : Type} [DecidableEq V] {receiver : Receiver V J}
    {peerRegion : String} (reads : ReadsRegion receiver.repo receiver.server peerRegion)
    (known : peerRegion ≠ "") (localHandshake : HandshakeMessage)
    {messages : List (ConsumeResponse × MessageRandom)} (db : Database V)
    (attributed : ∀ message ∈ messages, message.1.AttributedTo peerRegion) :
    let after := finalState (receiver.recvLoop peerRegion localHandshake false messages) db
    KeepsForeign receiver.repo receiver.server peerRegion db.store.tables after.store.tables ∧
      ∀ region, region ≠ peerRegion →
        after.store.cursors region = db.store.cursors region ∧ after.jobs region = db.jobs region := by
  have within := @Receiver.recvLoop_within _ _ _ _ _ reads known localHandshake false _ attributed db
  exact ⟨within.tables, fun region other => ⟨within.cursors region other, within.jobs region other⟩⟩

/-- A node of `eu` without encrypted fields. -/
def euReceiver : Receiver String Scalar where
  localRegion := "eu"
  repo := usersRepository
  server := usersServer
  mode := .fullSync
  json := scalarValues
  classes := asciiClasses
  crypto := ⟨openCiphers, ∅, ∅⟩

/-- A feed with one batch: the users of a region, sent under that region's name. -/
def usersMessages (region : String) (ids : List String) : List (ConsumeResponse × MessageRandom) :=
  let events : List MetaEvent := ids.map fun id => ⟨userEvent region id 1 "eve", ∅⟩
  [(.handshake (usersNode "us" []).handshake, fun _ _ => zeros),
    (.eventBatch (toProtoMetaEvents events), fun _ _ => zeros)]

/-- The peer `us` sends an event of the local region `eu`, and so changes a row that `eu`
owns and a cursor that is not the peer's. -/
theorem peer_changes_foreign_row :
    let after := finalState (euReceiver.recvLoop "us" (usersNode "eu" []).handshake false
      (usersMessages "eu" ["1"])) ⟨ownedUsers, fun _ _ => none⟩
    ((ownedUsers.tables "\"users\"" ["1"]).map fun row => (row "region", row "name")) =
        some (some "eu", some "ann") ∧
      ((after.store.tables "\"users\"" ["1"]).map fun row => (row "region", row "name")) =
        some (some "eu", some "eve") ∧
      ownedUsers.cursors "eu" "users" = none ∧
      ((after.store.cursors "eu" "users").map (·.lastVersion)) = some 1 := by
  decide

theorem session_stays_within_peer_users :
    let after := finalState (euReceiver.recvLoop "us" (usersNode "eu" []).handshake false
      (usersMessages "us" ["1", "2"])) ⟨ownedUsers, fun _ _ => none⟩
    KeepsForeign usersRepository usersServer "us" ownedUsers.tables after.store.tables ∧
      (∀ region, region ≠ "us" → after.store.cursors region = ownedUsers.cursors region ∧
        after.jobs region = fun _ => none) ∧
      (after.store.tables "\"users\"" ["2"]).map (· "name") = some (some "eve") := by
  have attributed : ∀ message ∈ usersMessages "us" ["1", "2"], message.1.AttributedTo "us" := by
    simp [usersMessages, ConsumeResponse.AttributedTo, toProtoMetaEvents, userEvent]
  have stays := @session_stays_within_peer _ _ _ euReceiver "us" (usersServer_readsRegion "us")
    (by decide) (usersNode "eu" []).handshake _ ⟨ownedUsers, fun _ _ => none⟩ attributed
  exact ⟨stays.1, stays.2, by decide⟩

end Transmogr

import Transmogr.ConsumeSession
import Transmogr.Machine
import Transmogr.Outbox

/-! Batches and their acks. The sender stores a batch under a key; the receiver makes the key
of its ack from the message, and the ack deletes the row it names. -/
namespace Transmogr

open Json (Values)
open Sql

/-- The events of a message that carries a batch. -/
def ConsumeResponse.batch? : ConsumeResponse → Option (BatchKind × List MetaProtoEvent)
  | .eventBatch events => some (.eventBatch, events)
  | .transactionBatch events => some (.transactionBatch, events)
  | _ => none

namespace Receiver

variable {V J : Type} [DecidableEq V] (receiver : Receiver V J)

def handleBatch (random : MessageRandom) (kind : BatchKind) (events : List MetaProtoEvent)
    (store : Store V) : Except String (AckRequest × Store V) :=
  match kind with
  | .eventBatch => receiver.handleEventBatch random events store
  | .transactionBatch => receiver.handleTransactionBatch random events store

/-- `CommitStateAppliedTransaction` has committed the events the mode allows, or it allows
none of them. -/
def Committed (kind : BatchKind) (events : List ReplicationEvent) (before after : Store V) : Prop :=
  ∃ allowed, prepareEvents receiver.mode events = .ok allowed ∧
    if allowed.isEmpty then after = before
    else commitStateAppliedTransaction receiver.repo receiver.server receiver.mode
      (commitOrder kind allowed) before = .ok after

end Receiver

namespace Acknowledgement

/-- What a node brings to the sessions it serves. -/
structure Sender (J : Type) where
  localRegion : String
  allowedPeerRegions : List String
  /-- The hex SHA-256 of an event id's input. -/
  digest : Bytes → String
  json : Values J
  crypto : CryptoService

namespace Sender

variable {J : Type} (sender : Sender J)

/-- The certificate is the one of the region. -/
def validateRemoteRegion (remoteRegion : String) : Except String Unit :=
  if remoteRegion = "" then .error "peer region is required"
  else if sender.localRegion ≠ "" ∧ remoteRegion = sender.localRegion then
    .error "peer region must not equal local region"
  else if sender.allowedPeerRegions ≠ [] ∧ remoteRegion ∉ sender.allowedPeerRegions then
    .error ("peer region " ++ quoted remoteRegion ++ " is not allowed")
  else .ok ()

/-- The batches `HandleBatch` enqueues for one peer. The table of the first event is the key
of all of them, unless they are parts of a transaction. -/
def enqueueBatch (cfg : ChangefeedConfig) (peerRegion : String) (batch : ChangefeedBatch)
    (sequence : Nat) : List OutboxBatch :=
  let events := handleBatchEvents sender.digest cfg batch.changes
  let tableKey := if batch.txID = "" then (events.head?.map (·.table)).getD "" else ""
  (enqueueChunks cfg events).map fun chunk =>
    { id := 0, peerRegion, table := tableKey, sequence, events := chunk, createdAt := 0,
      txID := batch.txID }

/-- The events of a row as a replay reads them. Events of the changefeed have no metadata. -/
def storedEvents (events : List ReplicationEvent) : Except String (List MetaEvent) :=
  events.mapM fun event => do
    let stored ← marshalJSON sender.json ⟨event, ∅⟩
    return unmarshalJSON stored

/-- `OutboxEnqueue`: `none` if nothing was inserted. -/
def outboxEnqueue (rows : List OutboxBatch) (batch : OutboxBatch) (id now : Nat) :
    Except String (Option (List OutboxBatch)) := do
  batch.validate
  let _ ← sender.storedEvents batch.events
  return insertPending rows (batch.stamped id now)

def batchToProto (batch : OutboxBatch) (events : List MetaEvent) : Except String ConsumeResponse := do
  let events ← prepareOutboundBatch sender.crypto events
  return if batch.txID ≠ "" then .transactionBatch (toProtoMetaEvents events)
    else .eventBatch (toProtoMetaEvents events)

/-- The events of a batch, from its row or from the copy that `publishLive` passed on. -/
def readEvents (batch : OutboxBatch) (replayed : Bool) : Except String (List MetaEvent) :=
  if replayed then sender.storedEvents batch.events
  else .ok (batch.events.map fun event => ⟨event, ∅⟩)

def message (batch : OutboxBatch) (replayed : Bool) : Except String ConsumeResponse := do
  let events ← sender.readEvents batch replayed
  sender.batchToProto batch events

/-- The handler of `Ack` -/
def handleAck (rows : List OutboxBatch) (ack : AckRequest) : Except String (List OutboxBatch) := do
  sender.validateRemoteRegion ack.region
  return ackPending rows ack.region ack.table ack.lastEventID

end Sender

variable {V J : Type} [DecidableEq V]

/-- A sender and the receivers by their regions. -/
structure Network (V J : Type) where
  sender : Sender J
  receiver : String → Receiver V J
  named : ∀ region, (receiver region).localRegion = region

/-- A message on its way. -/
structure Sent where
  batch : OutboxBatch
  replayed : Bool
  message : ConsumeResponse

/-- A message the receiver has applied, with its database before and after. -/
structure Delivery (V : Type) where
  batch : OutboxBatch
  replayed : Bool
  random : MessageRandom
  before : Store V
  after : Store V

structure State (V : Type) where
  nextID : Nat
  /-- The pending rows of all peers. -/
  rows : List OutboxBatch
  /-- Every batch ever inserted. -/
  history : List OutboxBatch
  messages : List Sent
  stores : String → Store V
  acks : List AckRequest
  deliveries : List (Delivery V)

def State.initial (stores : String → Store V) : State V := ⟨0, [], [], [], stores, [], []⟩

/-- Messages and acks stay where they are, so that they can arrive late and more than once; a
crash is a run that does not go on with them. -/
inductive Action where
  /-- One chunk of a batch for one peer, under the configuration the sender runs with. -/
  | enqueue (cfg : ChangefeedConfig) (batch : ChangefeedBatch) (peerRegion : String)
      (chunk sequence now : Nat)
  /-- A session sends an inserted batch. -/
  | serve (index : Nat) (replayed : Bool)
  | receive (index : Nat) (random : MessageRandom)
  | ack (index : Nat)

section Step

variable (network : Network V J)

def enqueue (s : State V) (batch : OutboxBatch) (now : Nat) : State V :=
  match network.sender.outboxEnqueue s.rows batch s.nextID now with
  | .ok (some rows) =>
    { s with nextID := s.nextID + 1, rows, history := s.history ++ [batch.stamped s.nextID now] }
  | _ => s

def receive (s : State V) (sent : Sent) (random : MessageRandom) : Option (State V) := do
  let (kind, events) ← sent.message.batch?
  let region := sent.batch.peerRegion
  match (network.receiver region).handleBatch random kind events (s.stores region) with
  | .error _ => some s
  | .ok (ack, store) => some { s with
      stores := Function.update s.stores region store
      acks := s.acks ++ [ack]
      deliveries := s.deliveries ++ [⟨sent.batch, sent.replayed, random, s.stores region, store⟩] }

def step (s : State V) : Action → Option (State V)
  | .enqueue cfg batch peerRegion chunk sequence now =>
    if peerRegion ∈ cfg.peers then
      ((network.sender.enqueueBatch cfg peerRegion batch sequence)[chunk]?).map fun batch =>
        enqueue network s batch now
    else none
  | .serve index replayed => do
    let batch ← s.history[index]?
    guard (replayed → batch ∈ s.rows)
    match network.sender.validateRemoteRegion batch.peerRegion, network.sender.message batch replayed with
    | .ok _, .ok message => some { s with messages := s.messages ++ [⟨batch, replayed, message⟩] }
    | _, _ => some s
  | .receive index random => do
    let sent ← s.messages[index]?
    receive network s sent random
  | .ack index => do
    let ack ← s.acks[index]?
    match network.sender.handleAck s.rows ack with
    | .ok rows => some { s with rows }
    | .error _ => some s

end Step

section Names

variable {sender : Sender J} {receiver : Receiver V J} {batch : OutboxBatch} {replayed : Bool}
  {message : ConsumeResponse} {random : MessageRandom} {kind : BatchKind}
  {events : List MetaProtoEvent} {store next : Store V} {ack : AckRequest}

/-- What rows and acks say about an event. -/
def named (event : MetaEvent) : String × String := (event.table, event.eventID)

omit [DecidableEq V] in
theorem storedEvents_named {events : List ReplicationEvent} {stored : List MetaEvent}
    (ran : sender.storedEvents events = .ok stored) :
    stored.map named = events.map fun event => (event.table, event.eventID) := by
  refine Fallible.map_of_mapM (fun event back stored => ?_) ran
  obtain ⟨written, marshalled, same⟩ := Fallible.bind_eq_ok.mp stored
  unfold marshalJSON at marshalled
  split at marshalled
  · cases marshalled
    cases same
    rfl
  · cases marshalled

omit [DecidableEq V] in
theorem prepareOutboundBatch_named {crypto : CryptoService} {events prepared : List MetaEvent}
    (ran : prepareOutboundBatch crypto events = .ok prepared) :
    prepared.map named = events.map named := by
  refine Fallible.map_of_mapM (fun event sent prepared => ?_) ran
  obtain ⟨result, -, same⟩ := Fallible.bind_eq_ok.mp prepared
  cases same
  rfl

/-- The message of a batch has the kind the transaction id gives it and the batch's events. -/
theorem message_names (made : sender.message batch replayed = .ok message)
    (carried : message.batch? = some (kind, events)) :
    kind = (if batch.txID = "" then .eventBatch else .transactionBatch) ∧
      events.map (fun event => (event.table, event.eventId)) =
        batch.events.map fun event => (event.table, event.eventID) := by
  obtain ⟨read, reads, made⟩ := Fallible.bind_eq_ok.mp made
  obtain ⟨prepared, prepares, made⟩ := Fallible.bind_eq_ok.mp made
  have names : prepared.map named = batch.events.map fun event => (event.table, event.eventID) := by
    rw [prepareOutboundBatch_named prepares]
    cases replayed with
    | true => exact storedEvents_named reads
    | false =>
      cases reads
      rw [List.map_map]
      rfl
  have wire : (toProtoMetaEvents prepared).map (fun event => (event.table, event.eventId)) =
      prepared.map named := by
    unfold toProtoMetaEvents
    rw [List.map_map]
    rfl
  by_cases plain : batch.txID = ""
  · simp only [plain, ne_eq, not_true_eq_false, if_false] at made
    cases made
    cases carried
    exact ⟨by rw [if_pos plain], wire.trans names⟩
  · simp only [plain, ne_eq, not_false_eq_true, if_true] at made
    cases made
    cases carried
    exact ⟨by rw [if_neg plain], wire.trans names⟩

/-- A row whose table is the one its ack will name. -/
def Addressed (batch : OutboxBatch) : Prop :=
  if batch.txID = "" then batch.events.head?.map (·.table) = some batch.table else batch.table = ""

def ackOf (batch : OutboxBatch) : AckRequest := ⟨batch.peerRegion, batch.table, batch.lastEventID⟩

def ackTable (events : List MetaProtoEvent) : BatchKind → String
  | .eventBatch => (events.head?.map (·.table)).getD ""
  | .transactionBatch => ""

theorem handleBatch_eq_ok (ran : receiver.handleBatch random kind events store = .ok (ack, next)) :
    ∃ decoded, receiver.decodeEvents random events = .ok decoded ∧
      receiver.Committed kind decoded store next ∧
      ack = ⟨receiver.localRegion, ackTable events kind, lastProtoEventID events⟩ := by
  cases kind with
  | eventBatch =>
    obtain ⟨decoded, decodes, ran⟩ := Fallible.bind_eq_ok.mp ran
    obtain ⟨after, applied, ran⟩ := Fallible.bind_eq_ok.mp ran
    cases ran
    refine ⟨decoded, decodes, applyBatch_eq_ok.mp applied, ?_⟩
    -- decoding and the pipeline keep the order and the tables of the events
    cases Receiver.decodeEvents_identified decodes with
    | nil => rfl
    | cons first _ => simp [ackTable, first.table]
  | transactionBatch =>
    obtain ⟨decoded, decodes, ran⟩ := Fallible.bind_eq_ok.mp ran
    obtain ⟨after, applied, ran⟩ := Fallible.bind_eq_ok.mp ran
    cases ran
    exact ⟨decoded, decodes, applyBatch_eq_ok.mp applied, rfl⟩

/-- The receiver's ack names the row of the batch. -/
theorem ack_eq (addressed : Addressed batch) (made : sender.message batch replayed = .ok message)
    (carried : message.batch? = some (kind, events)) (own : receiver.localRegion = batch.peerRegion)
    (ran : receiver.handleBatch random kind events store = .ok (ack, next)) : ack = ackOf batch := by
  obtain ⟨rfl, names⟩ := message_names made carried
  obtain ⟨-, -, -, rfl⟩ := handleBatch_eq_ok ran
  have last := congrArg (fun names => (names.getLast?.map Prod.snd).getD "") names
  have first := congrArg (fun names => (names.head?.map Prod.fst).getD "") names
  simp only [List.getLast?_map, List.head?_map, Option.map_map, Function.comp_def] at last first
  unfold Addressed at addressed
  unfold ackOf lastProtoEventID OutboxBatch.lastEventID
  split at addressed
  · next plain => simp [plain, ackTable, own, last, first, addressed]
  · next transaction => simp [transaction, ackTable, own, last, addressed]

end Names

/-! ## Every run -/

section Runs

variable (network : Network V J)

/-- The events of a delivery went through the sender's pipeline, the wire and the receiver's
pipeline, and the receiver committed them. -/
def Delivery.Applied (delivery : Delivery V) : Prop :=
  let receiver := network.receiver delivery.batch.peerRegion
  ∃ message kind events decoded,
    network.sender.message delivery.batch delivery.replayed = .ok message ∧
      message.batch? = some (kind, events) ∧
      receiver.decodeEvents delivery.random events = .ok decoded ∧
      receiver.Committed kind decoded delivery.before delivery.after

/-- The peer of a row has applied the row's events. -/
def State.Settled (s : State V) (row : OutboxBatch) : Prop :=
  ∃ delivery ∈ s.deliveries, delivery.batch.peerRegion = row.peerRegion ∧
    delivery.batch.events = row.events ∧ delivery.Applied network

/-- A chunk outside a transaction starts with an event of the table it is stored under, and no
batch with other events was ever stored under the key of a new row. -/
def Keyed (s : State V) : Action → Prop
  | .enqueue cfg batch peerRegion chunk sequence _ =>
    ∀ row ∈ (network.sender.enqueueBatch cfg peerRegion batch sequence)[chunk]?,
      (∀ old ∈ s.rows, ackOf old ≠ ackOf row) →
        (row.txID = "" → row.events.head?.map (·.table) = some row.table) ∧
          ∀ old ∈ s.history, ackOf old = ackOf row → old.events = row.events
  | _ => True

structure Ok (s : State V) : Prop where
  pending : ∀ row ∈ s.rows, row ∈ s.history
  unique : s.rows.Pairwise fun a b => ackOf a ≠ ackOf b
  addressed : ∀ batch ∈ s.history, Addressed batch
  same : ∀ a ∈ s.history, ∀ b ∈ s.history, ackOf a = ackOf b → a.events = b.events
  messages : ∀ sent ∈ s.messages, sent.batch ∈ s.history ∧
    network.sender.message sent.batch sent.replayed = .ok sent.message
  deliveries : ∀ delivery ∈ s.deliveries, delivery.Applied network
  acks : ∀ ack ∈ s.acks, ∃ delivery ∈ s.deliveries, delivery.batch ∈ s.history ∧
    ack = ackOf delivery.batch

variable {network} {s t : State V}

theorem ok_initial (stores : String → Store V) : Ok network (State.initial stores) := by
  constructor <;> simp [State.initial]

theorem conflicts_iff {a b : OutboxBatch} : a.conflicts b = true ↔ ackOf a = ackOf b := by
  simp [OutboxBatch.conflicts, ackOf]

theorem insertPending_eq_some {rows inserted : List OutboxBatch} {row : OutboxBatch}
    (made : insertPending rows row = some inserted) :
    inserted = rows ++ [row] ∧ ∀ old ∈ rows, ackOf old ≠ ackOf row := by
  unfold insertPending at made
  split at made
  · cases made
  · next free =>
    cases made
    refine ⟨rfl, fun old mem same => free ?_⟩
    exact List.any_eq_true.mpr ⟨old, mem, conflicts_iff.mpr same⟩

theorem ok_insert {row : OutboxBatch} {nextID : Nat} (ok : Ok network s) (addressed : Addressed row)
    (free : ∀ old ∈ s.rows, ackOf old ≠ ackOf row)
    (repeats : ∀ old ∈ s.history, ackOf old = ackOf row → old.events = row.events) :
    Ok network { s with nextID, rows := s.rows ++ [row], history := s.history ++ [row] } where
  pending := List.forall_mem_append.mpr
    ⟨fun old mem => List.mem_append_left _ (ok.pending old mem), fun _ => List.mem_append_right _⟩
  unique := by
    refine List.pairwise_append.mpr ⟨ok.unique, List.pairwise_singleton _ _, fun old mem new last => ?_⟩
    rw [List.mem_singleton.mp last]
    exact free old mem
  addressed := List.forall_mem_append.mpr ⟨ok.addressed, List.forall_mem_singleton.mpr addressed⟩
  same a memA b memB key := by
    simp only [List.mem_append, List.mem_singleton] at memA memB
    obtain memA | rfl := memA
    · obtain memB | rfl := memB
      · exact ok.same a memA b memB key
      · exact repeats a memA key
    · obtain memB | rfl := memB
      · exact (repeats b memB key.symm).symm
      · rfl
  messages sent mem := by
    obtain ⟨inside, made⟩ := ok.messages sent mem
    exact ⟨List.mem_append_left _ inside, made⟩
  deliveries := ok.deliveries
  acks ack mem := by
    obtain ⟨delivery, delivered, inside, names⟩ := ok.acks ack mem
    exact ⟨delivery, delivered, List.mem_append_left _ inside, names⟩

theorem ok_enqueue {cfg : ChangefeedConfig} {batch : ChangefeedBatch} {peerRegion : String}
    {chunk sequence : Nat} (now : Nat) {row : OutboxBatch} (ok : Ok network s)
    (keyed : Keyed network s (.enqueue cfg batch peerRegion chunk sequence now))
    (made : (network.sender.enqueueBatch cfg peerRegion batch sequence)[chunk]? = some row) :
    Ok network (enqueue network s row now) := by
  unfold enqueue
  split
  · next rows ran =>
    obtain ⟨-, -, ran⟩ := Fallible.bind_eq_ok.mp ran
    obtain ⟨-, -, ran⟩ := Fallible.bind_eq_ok.mp ran
    obtain ⟨rfl, free⟩ := insertPending_eq_some (Except.ok.inj ran)
    obtain ⟨table, repeats⟩ := keyed row made free
    refine ok_insert ok ?_ free repeats
    -- the parts of a transaction are stored under the empty table
    obtain ⟨piece, -, rfl⟩ := List.mem_map.mp (List.mem_of_getElem? made)
    by_cases plain : batch.txID = ""
    · simpa [Addressed, OutboxBatch.stamped, plain] using table plain
    · simp [Addressed, OutboxBatch.stamped, plain]
  · exact ok

theorem ok_serve {index : Nat} {replayed : Bool} (ok : Ok network s)
    (taken : step network s (.serve index replayed) = some t) : Ok network t := by
  obtain ⟨batch, found, taken⟩ := Option.bind_eq_some_iff.mp taken
  obtain ⟨-, -, taken⟩ := Option.bind_eq_some_iff.mp taken
  split at taken
  · next message made =>
    cases taken
    exact { ok with
      messages := List.forall_mem_append.mpr ⟨ok.messages, List.forall_mem_singleton.mpr
        ⟨List.mem_of_getElem? found, made⟩⟩ }
  · cases taken
    exact ok

theorem ok_receive {sent : Sent} {random : MessageRandom} (ok : Ok network s)
    (inside : sent ∈ s.messages) (taken : receive network s sent random = some t) : Ok network t := by
  obtain ⟨⟨kind, events⟩, carried, taken⟩ := Option.bind_eq_some_iff.mp taken
  obtain ⟨member, made⟩ := ok.messages sent inside
  simp only at taken
  split at taken
  · cases taken
    exact ok
  · next ack store ran =>
    cases taken
    have names := ack_eq (ok.addressed _ member) made carried (network.named _) ran
    obtain ⟨decoded, decodes, committed, -⟩ := handleBatch_eq_ok ran
    refine { ok with
      deliveries := List.forall_mem_append.mpr ⟨ok.deliveries, List.forall_mem_singleton.mpr
        ⟨_, kind, events, decoded, made, carried, decodes, committed⟩⟩
      acks := List.forall_mem_append.mpr ⟨fun other mem => ?_, List.forall_mem_singleton.mpr
        ⟨_, List.mem_append_right _ (List.mem_singleton_self _), member, names⟩⟩ }
    obtain ⟨delivery, delivered, rest⟩ := ok.acks other mem
    exact ⟨delivery, List.mem_append_left _ delivered, rest⟩

theorem handleAck_eq_ok {sender : Sender J} {rows left : List OutboxBatch} {ack : AckRequest}
    (ran : sender.handleAck rows ack = .ok left) : left = rows.filter fun row => ackOf row ≠ ack := by
  obtain ⟨-, -, ran⟩ := Fallible.bind_eq_ok.mp ran
  cases ran
  refine List.filter_congr fun row _ => ?_
  cases ack
  simp [ackOf]

theorem ok_ack {left : List OutboxBatch} {ack : AckRequest} (ok : Ok network s)
    (ran : network.sender.handleAck s.rows ack = .ok left) :
    Ok network { s with rows := left } := by
  obtain rfl := handleAck_eq_ok ran
  exact { ok with
    pending := fun row mem => ok.pending row (List.mem_of_mem_filter mem)
    unique := ok.unique.filter _ }

theorem step_ok {action : Action} (ok : Ok network s) (keyed : Keyed network s action)
    (taken : step network s action = some t) : Ok network t := by
  cases action with
  | enqueue cfg batch peerRegion chunk sequence now =>
    simp only [step] at taken
    split at taken
    · obtain ⟨row, made, rfl⟩ := Option.map_eq_some_iff.mp taken
      exact ok_enqueue now ok keyed made
    · cases taken
  | serve index replayed => exact ok_serve ok taken
  | receive index random =>
    obtain ⟨sent, found, taken⟩ := Option.bind_eq_some_iff.mp taken
    exact ok_receive ok (List.mem_of_getElem? found) taken
  | ack index =>
    obtain ⟨ack, found, taken⟩ := Option.bind_eq_some_iff.mp taken
    split at taken
    · next left ran =>
      cases taken
      exact ok_ack ok ran
    · cases taken
      exact ok

/-- The ack of a row leaves every other row where it is. -/
theorem handleAck_ackOf {row : OutboxBatch} (ok : Ok network s) (mem : row ∈ s.rows)
    (valid : network.sender.validateRemoteRegion row.peerRegion = .ok ()) :
    network.sender.handleAck s.rows (ackOf row) = .ok (s.rows.filter (· ≠ row)) := by
  have distinct : (s.rows.map ackOf).Nodup := List.pairwise_map.mpr ok.unique
  obtain ⟨left, ran⟩ : ∃ left, network.sender.handleAck s.rows (ackOf row) = .ok left :=
    ⟨_, Fallible.bind_eq_ok.mpr ⟨(), valid, rfl⟩⟩
  rw [ran, handleAck_eq_ok ran]
  refine congrArg Except.ok (List.filter_congr fun other inside => ?_)
  have injective := List.inj_on_of_nodup_map distinct inside mem
  simp only [decide_eq_decide]
  exact not_congr ⟨injective, congrArg ackOf⟩

theorem settled_of_ack {ack : AckRequest} {row : OutboxBatch} {left : List OutboxBatch}
    (ok : Ok network s) (sent : ack ∈ s.acks) (ran : network.sender.handleAck s.rows ack = .ok left)
    (mem : row ∈ s.rows) (gone : row ∉ left) : s.Settled network row := by
  obtain ⟨delivery, delivered, inside, rfl⟩ := ok.acks ack sent
  rw [handleAck_eq_ok ran] at gone
  have key : ackOf row = ackOf delivery.batch := by
    by_contra differs
    exact gone (List.mem_filter.mpr ⟨mem, by simpa using differs⟩)
  exact ⟨delivery, delivered, (congrArg AckRequest.region key).symm,
    ok.same _ inside row (ok.pending row mem) key.symm, ok.deliveries delivery delivered⟩

/-- An ack deletes the row of the batch it is about and no other row, and only a row whose
events the peer has applied, in every run that stores batches under keys that tell them
apart and that the receivers find again. -/
theorem acks_name_applied_batches {actions : List Action} (stores : String → Store V)
    (keyed : Machine.Meets (step network) (Keyed network) (.initial stores) actions)
    (ran : Machine.run (step network) (.initial stores) actions = some s) :
    (∀ row ∈ s.rows, network.sender.validateRemoteRegion row.peerRegion = .ok () →
      ∀ replayed message kind events random store ack next,
        network.sender.message row replayed = .ok message → message.batch? = some (kind, events) →
        (network.receiver row.peerRegion).handleBatch random kind events store = .ok (ack, next) →
        network.sender.handleAck s.rows ack = .ok (s.rows.filter (· ≠ row))) ∧
      ∀ ack ∈ s.acks, ∀ left, network.sender.handleAck s.rows ack = .ok left →
        ∀ row ∈ s.rows, row ∉ left → s.Settled network row := by
  have ok : Ok network s :=
    Machine.invariant (fun s action t ok keyed taken => step_ok ok keyed taken) (ok_initial stores)
      keyed ran
  constructor
  · intro row mem valid replayed message kind events random store ack next made carried handled
    rw [ack_eq (ok.addressed row (ok.pending row mem)) made carried (network.named _) handled]
    exact handleAck_ackOf ok mem valid
  · intro ack sent left handled row mem gone
    exact settled_of_ack ok sent handled mem gone

end Runs

def shopRepository : Repository :=
  ⟨.ofList [("users", usersSpec), ("orders", { usersSpec with name := "orders" })]⟩

/-- `eu` sends users and orders to its peers, and shows what it hashes. -/
def shop : Network String Scalar where
  sender := ⟨"eu", ["us"], fun input => String.ofList (input.map fun byte => Char.ofNat byte.toNat),
    scalarValues, ⟨openCiphers, ∅, ∅⟩⟩
  receiver region := { euReceiver with localRegion := region, repo := shopRepository }
  named _ := rfl

def shopStart : State String := .initial fun _ => ⟨fun _ _ => none, fun _ _ => none⟩

def shopFeed (maxBatchEvents : Nat) : ChangefeedConfig :=
  ⟨"eu", "polling", .fullSync, maxBatchEvents, ["us"]⟩

def shopChange (table id : String) (version : Int) : ChangefeedChange :=
  ⟨table, userKey id, .upsert, version, some (userEvent "eu" id version "ann").fields⟩

/-- A batch without a transaction id, cut between its tables: the second row is stored under
the first table and acked under its own. -/
def mixedTables : List Action :=
  let mixed : ChangefeedBatch := ⟨"", [shopChange "users" "1" 5, shopChange "orders" "2" 6]⟩
  [.enqueue (shopFeed 1) mixed "us" 0 1 0, .enqueue (shopFeed 1) mixed "us" 1 2 0,
    .serve 0 true, .receive 0 fun _ _ => zeros, .ack 0,
    .serve 1 true, .receive 1 fun _ _ => zeros, .ack 1]

/-- A user is delivered, and a new session sends it again before the late ack is handled. Then
the producer, whose cursor was not saved, reads the same page with one more user in front. -/
def samePage : List Action :=
  [.enqueue (shopFeed 10) ⟨"", [shopChange "users" "2" 6]⟩ "us" 0 1 0,
    .serve 0 true, .receive 0 fun _ _ => zeros, .serve 0 true, .ack 0,
    .enqueue (shopFeed 10) ⟨"", [shopChange "users" "1" 5, shopChange "users" "2" 6]⟩ "us" 0 2 0,
    .receive 1 fun _ _ => zeros]

/-- An ack that leaves its own row, and one that deletes a row with an event that was never
delivered. -/
theorem acks_that_name_other_batches :
    ((Machine.run (step shop) shopStart mixedTables).map fun s =>
        (s.rows.map (·.table), s.acks.map (·.table), s.deliveries.map (·.batch.table))) =
      some (["users"], ["users", "orders"], ["users", "users"]) ∧
    ((Machine.run (step shop) shopStart samePage).map fun s =>
        (s.rows.map (·.events.length), s.deliveries.map (·.batch.events.length))) =
      some ([2], [1, 1]) ∧
    ((Machine.run (step shop) shopStart (samePage ++ [.ack 1])).map (·.rows.length)) = some 0 := by
  decide +kernel

instance (s : State V) (network : Network V J) (action : Action) : Decidable (Keyed network s action) :=
  match action with
  | .enqueue cfg batch peerRegion chunk sequence _ =>
    inferInstanceAs (Decidable (∀ row ∈
      (network.sender.enqueueBatch cfg peerRegion batch sequence)[chunk]?,
        (∀ old ∈ s.rows, ackOf old ≠ ackOf row) →
          (row.txID = "" → row.events.head?.map (·.table) = some row.table) ∧
            ∀ old ∈ s.history, ackOf old = ackOf row → old.events = row.events))
  | .serve .. | .receive .. | .ack _ => .isTrue trivial

/-- A transaction over both tables, cut in two and delivered; the first part is acked. -/
def twoParts : List Action :=
  let parts : ChangefeedBatch := ⟨"0/A1", [shopChange "users" "1" 5, shopChange "orders" "2" 6]⟩
  [.enqueue (shopFeed 1) parts "us" 0 1 0, .enqueue (shopFeed 1) parts "us" 1 2 0,
    .serve 0 false, .serve 1 true, .receive 0 fun _ _ => zeros, .receive 1 fun _ _ => zeros, .ack 0]

theorem acks_name_applied_batches_shop :
    ∃ s, Machine.run (step shop) shopStart twoParts = some s ∧ s.rows.length = 1 ∧
      s.acks.map (fun ack => (shop.sender.handleAck s.rows ack).toOption.map List.length) =
        [some 1, some 0] ∧
      ∀ row ∈ s.rows, s.Settled shop row := by
  have reached : (Machine.run (step shop) shopStart twoParts).map (fun s => (s.rows.length,
      s.acks.map fun ack => (shop.sender.handleAck s.rows ack).toOption.map List.length)) =
    some (1, [some 1, some 0]) := by decide +kernel
  obtain ⟨s, ran, facts⟩ := Option.map_eq_some_iff.mp reached
  obtain ⟨one, handled⟩ := Prod.mk.inj facts
  refine ⟨s, ran, one, handled, fun row mem => ?_⟩
  -- the second ack deletes the row that is left
  have second : some 0 ∈ s.acks.map fun ack =>
      (shop.sender.handleAck s.rows ack).toOption.map List.length := by simp [handled]
  obtain ⟨ack, sent, emptied⟩ := List.mem_map.mp second
  cases left : shop.sender.handleAck s.rows ack with
  | error err => simp [left, Except.toOption] at emptied
  | ok rest =>
    obtain rfl : rest = [] := by simpa [left, Except.toOption] using emptied
    exact (acks_name_applied_batches _ (by decide +kernel) ran).2 ack sent [] left row mem (by simp)

end Acknowledgement

end Transmogr

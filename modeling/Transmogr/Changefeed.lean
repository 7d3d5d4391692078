import Transmogr.Chunks
import Transmogr.Sql
import Transmogr.Wire

/-! The producer side of `service/changefeed/service.go`: changes become events
and are cut into outbox batches for every peer. -/
namespace Transmogr

structure ChangefeedChange where
  table : String
  primaryKey : PrimaryKey
  operation : ReplicationOperation
  version : Int
  payload : Option Sql.Object
  deriving DecidableEq

structure ChangefeedBatch where
  txID : String
  changes : List ChangefeedChange

structure ChangefeedCursor where
  table : String
  source : String
  lastVersion : Int
  lastPrimaryKey : PrimaryKey
  deriving DecidableEq

structure ChangefeedConfig where
  localRegion : String
  source : String
  broadcastMode : ReplicationBroadcastMode
  maxBatchEvents : Nat
  peers : List String

/-- What `eventIDFromChange` feeds to the hash. -/
def eventIDInput (change : ChangefeedChange) : Bytes :=
  let prefixed (value : Bytes) : Bytes := Json.formatInt value.length ++ 0x3a :: value
  let text (value : String) : Bytes := prefixed (Json.utf8 value)
  let operation := match change.operation with
    | .unset => ""
    | .insert => "insert"
    | .update => "update"
    | .upsert => "upsert"
    | .delete => "delete"
  let key := change.primaryKey.flatMap fun part =>
    text part.column ++ text part.type.name ++ prefixed part.value
  text change.table ++ (Json.formatInt change.primaryKey.length ++ 0x3a :: key) ++
    prefixed (Json.formatInt change.version) ++ text operation

/-- A nil payload has no fields. -/
def payloadToFields (payload : Option Sql.Object) : Fields := payload.getD ∅

variable (digest : Bytes → String)

/-- The event of one change; `digest` is the hex SHA-256 of its input. -/
def eventOfChange (cfg : ChangefeedConfig) (change : ChangefeedChange) : ReplicationEvent where
  peerRegion := cfg.localRegion
  table := change.table
  eventID := digest (eventIDInput change)
  primaryKey := change.primaryKey
  operation := change.operation
  version := change.version
  fields := payloadToFields change.payload

/-- The events `HandleBatch` enqueues: the broadcast mode filters the changes. -/
def handleBatchEvents (cfg : ChangefeedConfig) (changes : List ChangefeedChange) :
    List ReplicationEvent :=
  (changes.filter fun change => broadcastAllowed cfg.broadcastMode change.operation).map
    (eventOfChange digest cfg)

/-- The pieces `enqueueBatch` hands to the outbox, one batch each. -/
def enqueueChunks (cfg : ChangefeedConfig) (events : List ReplicationEvent) :
    List (List ReplicationEvent) :=
  Chunks.chunks cfg.maxBatchEvents events

end Transmogr

import Transmogr.Capture
import Transmogr.CaptureOrder
import Transmogr.CaptureResume
import Transmogr.Changefeed
import Transmogr.Handover
import Transmogr.Convergence
import Transmogr.SourceHistory
import Transmogr.Mirror
import Transmogr.OutboxProtocol
import Transmogr.PolledRows
import Transmogr.PollingProducer
import Transmogr.Redelivery
import Transmogr.Skipping
import Transmogr.Bootstrap
import Transmogr.Statements
import Transmogr.Ownership
import Transmogr.Base64
import Transmogr.Codec
import Transmogr.Crypto
import Transmogr.Transformers
import Transmogr.EncryptedFields
import Transmogr.Handshake
import Transmogr.LeaseCalls
import Transmogr.ConsumeSession
import Transmogr.InsertOnly
import Transmogr.Echo
import Transmogr.Acknowledgement
import Transmogr.Channels
import Transmogr.Subscriptions
import Transmogr.Teardown
import Transmogr.RunningMax
import Transmogr.Records
import Transmogr.KeyManager
import Transmogr.UpdateDiff
import Transmogr.Parameters
import Transmogr.RowWrites
import Transmogr.EventCalls
import Transmogr.LastPerKey
import Transmogr.Batching
import Transmogr.Paging
import Transmogr.ReadQueries
import Transmogr.SnapshotPaging
import Transmogr.PollPaging
import Transmogr.CaptureRun
import Transmogr.CaptureRelations
import Transmogr.RowPayloads
import Transmogr.Staging
import Transmogr.CipherColumns
import Transmogr.InboundPipeline
import Transmogr.TransitNames
import Transmogr.CryptoPaths
import Transmogr.PrefixCodes
import Transmogr.EventIDs
import Transmogr.JsonText
import Transmogr.Strconv
import Transmogr.KeyCodec
import Transmogr.TextOrder
import Transmogr.KeyOrder
import Transmogr.KeySpelling
import Transmogr.Sorting
import Transmogr.HandshakeForm
import Transmogr.MigrationFiles
import Transmogr.Migrations
import Transmogr.ReplayPaging
import Transmogr.Draining
import Transmogr.Following
import Transmogr.LeaseTiming
import Transmogr.Retention

import EnclaveRaft.Lib.Act
import EnclaveRaft.Lib.Quorum
import EnclaveRaft.Lib.Ranks
import EnclaveRaft.Lib.OrderedMap
import EnclaveRaft.Lib.History
import EnclaveRaft.Lib.Completeness
import EnclaveRaft.Lib.OneLog
import EnclaveRaft.Lib.Block
import EnclaveRaft.Lib.Machine
import EnclaveRaft.Lib.Tiling
import EnclaveRaft.Lib.CString
import EnclaveRaft.Types
import EnclaveRaft.LogStore
import EnclaveRaft.OffsetList
import EnclaveRaft.StoreCalls
import EnclaveRaft.Server
import EnclaveRaft.RaftServer
import EnclaveRaft.Handlers
import EnclaveRaft.Cluster
import EnclaveRaft.Steps
import EnclaveRaft.Walks
import EnclaveRaft.Reach
import EnclaveRaft.Static
import EnclaveRaft.Ballots
import EnclaveRaft.Votes
import EnclaveRaft.Objects
import EnclaveRaft.Stale
import EnclaveRaft.CursorRange
import EnclaveRaft.MajorityPoint
import EnclaveRaft.LeaderExpiry
import EnclaveRaft.Origins
import EnclaveRaft.Logs
import EnclaveRaft.Matching
import EnclaveRaft.Exposed
import EnclaveRaft.Merge
import EnclaveRaft.AppendMerge
import EnclaveRaft.LogSync
import EnclaveRaft.SnapshotTransfer
import EnclaveRaft.Ledger
import EnclaveRaft.OneServer
import EnclaveRaft.Intact
import EnclaveRaft.SnapshotOrder
import EnclaveRaft.InOrder
import EnclaveRaft.ConfigFlag
import EnclaveRaft.Pairing
import EnclaveRaft.LastEntry
import EnclaveRaft.Committed
import EnclaveRaft.Applied
import EnclaveRaft.Turns
import EnclaveRaft.ElectionTimer
import EnclaveRaft.Removed
import EnclaveRaft.Slots
import EnclaveRaft.Wire.Buffer
import EnclaveRaft.Wire.Config
import EnclaveRaft.Wire.Message
import EnclaveRaft.Port.CallbackPool
import EnclaveRaft.Host.Session
import EnclaveRaft.Host.Timers
import EnclaveRaft.Host.Client
import EnclaveRaft.Common.UrlDecode
import EnclaveRaft.Reconfigure
import EnclaveRaft.Port.Responses
import EnclaveRaft.Common.Json
import EnclaveRaft.System.KeyStore
import EnclaveRaft.Port.ClientRequests
import EnclaveRaft.Wire.LogPack
import EnclaveRaft.Provenance
import EnclaveRaft.Port.Payloads
import EnclaveRaft.System.Report
import EnclaveRaft.Membership
import EnclaveRaft.Invitations
import EnclaveRaft.Handshake
import EnclaveRaft.Lib.Ram
import EnclaveRaft.Wire.Memory
import EnclaveRaft.Wire.Layout
import EnclaveRaft.Wire.Sequences
import EnclaveRaft.Matched
import EnclaveRaft.KnownTerms
import EnclaveRaft.JoinedLog
import EnclaveRaft.Durable
import EnclaveRaft.Restarts
import EnclaveRaft.Refinement
import EnclaveRaft.CommitThread
import EnclaveRaft.AsyncResult
import EnclaveRaft.Host.Streams
import EnclaveRaft.Host.Channel
import EnclaveRaft.Port.RemoteCalls

import FfmucSalt.Base32
import FfmucSalt.Base32Leftover
import FfmucSalt.DhcpServer.Blocks
import FfmucSalt.DhcpServer.Conversion
import FfmucSalt.DhcpServer.DhcpdConf
import FfmucSalt.DhcpServer.FlatFile
import FfmucSalt.DhcpServer.GlobalScope
import FfmucSalt.DhcpServer.Pool
import FfmucSalt.DhcpServer.PoolStats
import FfmucSalt.DnsAuth.PtrRecords
import FfmucSalt.DnsAuth.ReverseZones
import FfmucSalt.Encoding
import FfmucSalt.Foundation.AtomicFile
import FfmucSalt.Foundation.FiniteMap
import FfmucSalt.Foundation.Nesting
import FfmucSalt.Foundation.Pattern
import FfmucSalt.Foundation.Program
import FfmucSalt.Foundation.Replication
import FfmucSalt.Foundation.TopK
import FfmucSalt.Foundation.Wildcard
import FfmucSalt.MeetReserve.AppLinkConfig
import FfmucSalt.MeetReserve.AppLinks
import FfmucSalt.MeetReserve.Calendar
import FfmucSalt.MeetReserve.Changes
import FfmucSalt.MeetReserve.Cluster
import FfmucSalt.MeetReserve.Convergence
import FfmucSalt.MeetReserve.CrashSafety
import FfmucSalt.MeetReserve.EmptyTombstone
import FfmucSalt.MeetReserve.Generations
import FfmucSalt.MeetReserve.Handlers
import FfmucSalt.MeetReserve.Horizon
import FfmucSalt.MeetReserve.IssuedSecrets
import FfmucSalt.MeetReserve.JoinPaths
import FfmucSalt.MeetReserve.JoinTokens
import FfmucSalt.MeetReserve.Keys
import FfmucSalt.MeetReserve.Links
import FfmucSalt.MeetReserve.LockSafety
import FfmucSalt.MeetReserve.MergeAlgebra
import FfmucSalt.MeetReserve.Metrics
import FfmucSalt.MeetReserve.Names
import FfmucSalt.MeetReserve.Network
import FfmucSalt.MeetReserve.NullEntries
import FfmucSalt.MeetReserve.OneWinner
import FfmucSalt.MeetReserve.Pairs
import FfmucSalt.MeetReserve.PeerSignatures
import FfmucSalt.MeetReserve.Process
import FfmucSalt.MeetReserve.ProofOfWork
import FfmucSalt.MeetReserve.Pulling
import FfmucSalt.MeetReserve.Record
import FfmucSalt.MeetReserve.RecordOrder
import FfmucSalt.MeetReserve.ReportedChanges
import FfmucSalt.MeetReserve.Representation
import FfmucSalt.MeetReserve.Rotation
import FfmucSalt.MeetReserve.Server
import FfmucSalt.MeetReserve.Snapshot
import FfmucSalt.MeetReserve.SpeakerLinks
import FfmucSalt.MeetReserve.StaleKey
import FfmucSalt.MeetReserve.Store
import FfmucSalt.MeetReserve.StoreEvery
import FfmucSalt.MeetReserve.StoreIndex
import FfmucSalt.MeetReserve.StoreInvariant
import FfmucSalt.MeetReserve.StoreLookup
import FfmucSalt.MeetReserve.StorePoints
import FfmucSalt.MeetReserve.Tokens
import FfmucSalt.MeetReserve.Tombstone
import FfmucSalt.MeetReserve.Tracing
import FfmucSalt.MeetReserve.Worker
import FfmucSalt.Python.IpAddress
import FfmucSalt.Python.Text
import FfmucSalt.Search
import FfmucSalt.SignedRooms.Acceptance
import FfmucSalt.SignedRooms.Admission
import FfmucSalt.SignedRooms.Aliases
import FfmucSalt.SignedRooms.CachedVerdict
import FfmucSalt.SignedRooms.Closing
import FfmucSalt.SignedRooms.Conference
import FfmucSalt.SignedRooms.Credentials
import FfmucSalt.SignedRooms.History
import FfmucSalt.SignedRooms.Hooks
import FfmucSalt.SignedRooms.Migration
import FfmucSalt.SignedRooms.Moderators
import FfmucSalt.SignedRooms.Names
import FfmucSalt.SignedRooms.Overtaking
import FfmucSalt.SignedRooms.Reopening
import FfmucSalt.SignedRooms.Rooms
import FfmucSalt.SignedRooms.SameNames
import FfmucSalt.SignedRooms.Staleness
import FfmucSalt.SignedRooms.Tokens
import FfmucSalt.Text
import FfmucSalt.Unicode

import MeshwardenDaemon.CacheCoherence
import MeshwardenDaemon.LiveConnection
import MeshwardenDaemon.ChannelsAtRest
import MeshwardenDaemon.AttributionLaw
import MeshwardenDaemon.ContactSync
import MeshwardenDaemon.Migration
import MeshwardenDaemon.PacketStats
import MeshwardenDaemon.PumpWakeups
import MeshwardenDaemon.Acknowledgements
import MeshwardenDaemon.ContactRemoval
import MeshwardenDaemon.PushOrder
import MeshwardenDaemon.Supervisor
import MeshwardenDaemon.PingCorrelation
import MeshwardenDaemon.FrameRoundTrip
import MeshwardenDaemon.SentMessages
import MeshwardenDaemon.SlotRefresh
import MeshwardenDaemon.SignalAverages
import MeshwardenDaemon.Interruption
import MeshwardenDaemon.OutgoingMessages
import MeshwardenDaemon.ContactHistory
import MeshwardenDaemon.LastSeenRepair
import MeshwardenDaemon.PayloadIteration
import MeshwardenDaemon.BackfillRequest
import MeshwardenDaemon.PageWalk
import MeshwardenDaemon.EventStreams
import MeshwardenDaemon.TextFilters
import MeshwardenDaemon.CommandHistory
import MeshwardenDaemon.CallSteps
import MeshwardenDaemon.FairSlot
import MeshwardenDaemon.ClientSessions
import MeshwardenDaemon.ProxyStreams
import MeshwardenDaemon.Retention
import MeshwardenDaemon.ClientStream
import MeshwardenDaemon.ReaderTap
import MeshwardenDaemon.BackfillSettles
import MeshwardenDaemon.ContactRegisters
import MeshwardenDaemon.CacheHistory
import MeshwardenDaemon.CacheHits
import MeshwardenDaemon.LivePages
import MeshwardenDaemon.ChannelReferences
import MeshwardenDaemon.Recorder
import MeshwardenDaemon.Archive
import MeshwardenDaemon.ContactMirror
import MeshwardenDaemon.PumpDrains
import MeshwardenDaemon.Locks
import MeshwardenDaemon.SupervisorRuns
import MeshwardenDaemon.Resynchronisation

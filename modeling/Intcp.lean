import Intcp.FuelledLoop
import Intcp.StepRuns
import Intcp.LittleEndian
import Intcp.Words
import Intcp.BlockCache
import Intcp.CacheContents
import Intcp.LastWrite
import Intcp.PrefixReads
import Intcp.RecencyRuns
import Intcp.SegmentCodec
import Intcp.RateControl
import Intcp.DataPlane
import Intcp.HoleTracking
import Intcp.InterestPlane
import Intcp.NodeCore
import Intcp.CallRules
import Intcp.NodeMoves
import Intcp.SentRanges
import Intcp.InterestSplit
import Intcp.RecvDrain
import Intcp.HoleFlush
import Intcp.Spans
import Intcp.HoleInvariants
import Intcp.ByteAccounts
import Intcp.OutputLimit
import Intcp.DataFifo
import Intcp.InputLoop
import Intcp.HopRtt
import Intcp.GapRelay
import Intcp.LossAnnouncement
import Intcp.RejectedSegments
import Intcp.InterestFifo
import Intcp.PendingInterests
import Intcp.InterestRelease
import Intcp.CacheStream
import Intcp.GroundStation
import Intcp.WireWalkers
import Intcp.TunnelIngress
import Intcp.HopWalks
import Intcp.TestbedRoutes
import Intcp.TraceRouting
import Intcp.InterestChunks
import Intcp.QueueReport
import Intcp.HrttHistory
import Intcp.ExactFloats
import Intcp.SendRate
import Intcp.WindowFloor
import Intcp.ReorderQueue
import Intcp.OffsetLimits
import Intcp.Odometer
import Intcp.Dicts
import Intcp.Params
import Intcp.ParamSets
import Intcp.ParamIsolation
import Intcp.MaximalRuns
import Intcp.ContactIntervals
import Intcp.ContactRuns
import Intcp.LabelledSpans
import Intcp.ByteLabels
import Intcp.DatagramSoup
import Intcp.GenuineBytes
import Intcp.NetworkIntegrity
import Intcp.FifoChain
import Intcp.StreamDelivery
import Intcp.InterestBudget
import Intcp.SharedStore
import Intcp.NodeEffects
import Intcp.SessionHost
import Intcp.UpdateLoop
import Intcp.HoleRuns
import Intcp.MissingBytes
import Intcp.HopRecovery
import Intcp.PointerWalks
import Intcp.Numbering
import Intcp.TraceGeneration
import Intcp.TraceHistory
import Intcp.TracePlayback
import Intcp.WindowGrowth
import Intcp.LinkSettings
import Intcp.TextScan
import Intcp.DelayLog
import Intcp.PepRelay
import Intcp.SynTable

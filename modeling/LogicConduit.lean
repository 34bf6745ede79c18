import LogicConduit.DerivedMipmaps
import LogicConduit.AnnotationBuckets
import LogicConduit.PresencePartition
import LogicConduit.PresenceCounts
import LogicConduit.WordDecodeSoundness
import LogicConduit.WordLookup
import LogicConduit.BoundaryEnds
import LogicConduit.CacheCleanup
import LogicConduit.CacheKeyLanes
import LogicConduit.SummaryAgreement
import LogicConduit.IndexWindowSafety
import LogicConduit.GateStream
import LogicConduit.SearchPaths
import LogicConduit.PacketPartition
import LogicConduit.MatcherResults
import LogicConduit.SinkResults
import LogicConduit.UartRoundTrip
import LogicConduit.UartAnnotations
import LogicConduit.I2cRoundTrip
import LogicConduit.CooperativeRuns
import LogicConduit.LossyRuns
import LogicConduit.WorkerCancellation
import LogicConduit.WorkerFrameResults
import LogicConduit.RerouteEdits
import LogicConduit.CanonicalState
import LogicConduit.LoweringResults
import LogicConduit.LiveReports
import LogicConduit.PolicyNegotiation
import LogicConduit.TriggerLaneEdits
import LogicConduit.ExportDestination
import LogicConduit.DslArchives
import LogicConduit.FailedDrains
import LogicConduit.MemoryArtifacts

import Restream.RingDelivery
import Restream.FeedAgreement
import Restream.FeedLeaf
import Restream.HandoffOrder
import Restream.HlsPushRun
import Restream.InputExclusion
import Restream.RingFollow
import Restream.RingMigration
import Restream.UploadRules
import Restream.Fmp4Preview
import Restream.HlsGenerations
import Restream.HlsInitNewest
import Restream.IngestBans
import Restream.RawReading
import Restream.RtmpClock
import Restream.RtmpPublisherConfig
import Restream.TsRoundTrip
import Restream.TsWrap
import Restream.AdtsReframing
import Restream.AudioRouter
import Restream.FeedWake
import Restream.HlsDeadlineRun
import Restream.HlsEncoderRun
import Restream.OutputGraph
import Restream.PublisherRun
import Restream.PullRun
import Restream.RecirculationGraph
import Restream.Republish
import Restream.ScheduleTicks
import Restream.StageOutput
import Restream.UnitRun
import Restream.InterleaveMerge
import Restream.Pacing
import Restream.ReadyQueue
import Restream.SegmentDelivery
import Restream.PayloadCache
import Restream.ViewerToken
import Restream.IngressBudgets
import Restream.AdtsRanges
import Restream.ObjectPaths

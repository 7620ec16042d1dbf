import FinanceTech.PriceTime
import FinanceTech.Proofs.MatchingUncrossed
import FinanceTech.Proofs.LevelQuantity
import FinanceTech.Proofs.EngineEquivalence
import FinanceTech.Proofs.MatchingPriority
import FinanceTech.Proofs.PriceTimeRefinement
import FinanceTech.Proofs.UntouchedOrder
import FinanceTech.Proofs.NoTrace
import FinanceTech.Proofs.SimplePriority
import FinanceTech.Proofs.OrderBookRefinement
import FinanceTech.Proofs.PnlAccounting
import FinanceTech.Proofs.PositionLimit
import FinanceTech.Proofs.PipelineSafety
import FinanceTech.Proofs.DepthBookRefinement
import FinanceTech.Proofs.DepthSynchronisation
import FinanceTech.Proofs.OrderRuns
import FinanceTech.Proofs.LedgerAgreement
import FinanceTech.Proofs.OrderLifecycle
import FinanceTech.Proofs.FillReconciliation
import FinanceTech.Proofs.PositionHistory
import FinanceTech.RingBuffer
import FinanceTech.Proofs.RingQueue
import FinanceTech.Proofs.RingHandOver
import FinanceTech.PnLCalculator
import FinanceTech.Proofs.PnlValuation
import FinanceTech.OrderGateway
import FinanceTech.Proofs.OrderBookkeeping
import FinanceTech.Proofs.MatchingQuantities
import FinanceTech.Proofs.QuantityConservation
import FinanceTech.Proofs.RecordedTrades
import FinanceTech.Proofs.RestingLive
import FinanceTech.Proofs.MasterList
import FinanceTech.MetricsController
import FinanceTech.Library.Drain
import FinanceTech.Library.Threads
import FinanceTech.Proofs.MetricsSteps
import FinanceTech.Proofs.HistogramRecording
import FinanceTech.Proofs.MetricsExport
import FinanceTech.Library.WideInteger
import FinanceTech.Proofs.ProfitRange
import FinanceTech.Proofs.AverageRounding
import FinanceTech.Proofs.RiskChecks
import FinanceTech.Proofs.ImbalanceSignals
import FinanceTech.Proofs.RealLiquidity
import FinanceTech.Library.BoundedMap
import FinanceTech.Proofs.FlatMapBest
import FinanceTech.Proofs.FlatMapInvariant
import FinanceTech.Library.LinkedList
import FinanceTech.PriceLadder
import FinanceTech.Proofs.LadderLevels
import FinanceTech.Proofs.LadderBook
import FinanceTech.Proofs.LadderSoundness
import FinanceTech.Proofs.LadderIndex
import FinanceTech.BoundedCollections
import FinanceTech.Proofs.ConstantSizeMap
import FinanceTech.Proofs.SortedArraySlots
import FinanceTech.Proofs.SortedArrayBest
import FinanceTech.PriceLevelBook
import FinanceTech.Proofs.FeedReplay
import FinanceTech.Proofs.RingSize
import FinanceTech.Library.BoundedQueue
import FinanceTech.OverwritingRings
import FinanceTech.Proofs.DropOldestRing
import FinanceTech.Proofs.LoggerRing
import FinanceTech.FlatLevelMap
import FinanceTech.Proofs.FlatSideBounds
import FinanceTech.Proofs.FlatSideRefinement
import FinanceTech.Encodings
import FinanceTech.Proofs.HexRoundTrip
import FinanceTech.Library.Base64
import FinanceTech.Proofs.Base64Encoding
import FinanceTech.ObjectPool
import FinanceTech.Library.WholeFloat
import FinanceTech.Proofs.PoolSlots
import FinanceTech.Proofs.PoolDestructor
import FinanceTech.Library.Loops
import FinanceTech.Library.Trimming
import FinanceTech.StringUtilities
import FinanceTech.Proofs.TrimAgreement
import FinanceTech.Proofs.StripAgreement
import FinanceTech.UdsServer
import FinanceTech.Proofs.ChunkedReceive
import FinanceTech.ByteBuffer
import FinanceTech.Proofs.BufferContents
import FinanceTech.ExchangeDataProcessor
import FinanceTech.Proofs.FeedPush
import FinanceTech.DaVinchiTest
import FinanceTech.Library.Index
import FinanceTech.SimpleOrderBook
import FinanceTech.Proofs.ListIndex
import FinanceTech.Proofs.BookIndex
import FinanceTech.Library.Exclusion
import FinanceTech.Proofs.SpinLocks
import FinanceTech.BlockingQueue
import FinanceTech.Proofs.BlockingQueues
import FinanceTech.ExchangeBookKeeper
import FinanceTech.Proofs.BufferHandOver
import FinanceTech.Proofs.FeedBooks
import FinanceTech.Proofs.MetricValues
import FinanceTech.SpinLock
import FinanceTech.Proofs.LadderDepth
import FinanceTech.DataFeeder
import FinanceTech.Proofs.FeedDelivery
import FinanceTech.Proofs.RingCommit
import FinanceTech.PricingEngine
import FinanceTech.Proofs.DepthBooksAgree
import FinanceTech.Library.Splitting
import FinanceTech.Proofs.StringSplitting
import FinanceTech.Proofs.OrderLines
import FinanceTech.Library.Largest
import FinanceTech.Proofs.OrderReports
import FinanceTech.MatchingListPtr
import FinanceTech.Proofs.ListPointerEngines
import FinanceTech.LogPipeline
import FinanceTech.Proofs.LogDelivery
import FinanceTech.UdsLoop
import FinanceTech.Proofs.UdsDescriptors

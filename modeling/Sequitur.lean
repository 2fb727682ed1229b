import Sequitur.LinkedLists
import Sequitur.Runs
import Sequitur.Families
import Sequitur.FixedQueue
import Sequitur.Rounding
import Sequitur.RankSelection
import Sequitur.OrderBook
import Sequitur.ObjectPool
import Sequitur.MatchingEngine
import Sequitur.LevelBook
import Sequitur.Abstraction
import Sequitur.OrderRemoval
import Sequitur.Simulation
import Sequitur.Accounting
import Sequitur.SlotStack
import Sequitur.PoolAccounting
import Sequitur.EngineStep
import Sequitur.Sessions
import Sequitur.Histories
import Sequitur.SlotReuse
import Sequitur.BookState
import Sequitur.Conservation
import Sequitur.Cursors
import Sequitur.OppositeSides
import Sequitur.Marketable
import Sequitur.QueueBounds
import Sequitur.MatchingLoop
import Sequitur.Protocol
import Sequitur.DecimalFields
import Sequitur.CSVScanner
import Sequitur.CoreLoop
import Sequitur.PriceBounds
import Sequitur.Rings
import Sequitur.RecordLayout
import Sequitur.SharedSegment
import Sequitur.SegmentFifo
import Sequitur.IngressRing
import Sequitur.ReportData
import Sequitur.SPSCQueue
import Sequitur.EgressPipeline
import Sequitur.EgressDelivery
import Sequitur.Teardown
import Sequitur.BoundedFifo
import Sequitur.RingBuffer
import Sequitur.RingFifo
import Sequitur.MPSCQueue
import Sequitur.TicketOrder
import Sequitur.Gateway
import Sequitur.IngressDelivery
import Sequitur.ClientRegistry
import Sequitur.Answers
import Sequitur.ReportRouting
import Sequitur.Framing
import Sequitur.EgressReader
import Sequitur.BalanceAudit
import Sequitur.UndefinedSides
import Sequitur.Reference
import Sequitur.PriceTimePriority
import Sequitur.MetricsWorker
import Sequitur.LatencyHistogram
import Sequitur.LatencyPercentiles
import Sequitur.Telemetry
import Sequitur.OrderLedger
import Sequitur.Exhaustion
import Sequitur.BookSymmetry
import Sequitur.EngineProcess
import Sequitur.EngineDelivery
import Sequitur.EngineProgress
import Sequitur.EngineTelemetry
import Sequitur.FlatObjects
import Sequitur.TelemetryLine
import Sequitur.SessionStreams
import Sequitur.TradingSystem
import Sequitur.GatewayProgress
import Sequitur.SystemProgress
import Sequitur.EngineClosing
import Sequitur.EngineShutdown

import FlareTrader.SortedList
import FlareTrader.SortedMap
import FlareTrader.SlidingWindow
import FlareTrader.Execution
import FlareTrader.Framing
import FlareTrader.StringUtils
import FlareTrader.TradeMsg
import FlareTrader.ContractFile
import FlareTrader.PositionCalculator
import FlareTrader.PositionManager
import FlareTrader.ThrottleRateRisk
import FlareTrader.RiskRules
import FlareTrader.Oms
import FlareTrader.OmsResponses
import FlareTrader.OmsSubmission
import FlareTrader.OmsSelfTrade
import FlareTrader.OmsCompletion
import FlareTrader.MatchEngine
import FlareTrader.SimpleMatchEngine
import FlareTrader.PriceLevels
import FlareTrader.AdvancedMatchEngine
import FlareTrader.AdvancedBook
import FlareTrader.AdvancedPriority
import FlareTrader.AdvancedCancel
import FlareTrader.AdvancedSweeps
import FlareTrader.BacktestGateway
import FlareTrader.BacktestFunds
import FlareTrader.BacktestCash
import FlareTrader.LedgerCover
import FlareTrader.BacktestPositions
import FlareTrader.InFlight
import FlareTrader.StrategyPositions
import FlareTrader.OmsBacktest
import FlareTrader.OmsExposure
import FlareTrader.BacktestMargin
import FlareTrader.BacktestProfit
import FlareTrader.OmsQueue
import FlareTrader.OmsCancels
import FlareTrader.OmsFunds
import FlareTrader.FundRuleOrders
import FlareTrader.OmsRepeats
import FlareTrader.TargetPosEngine
import FlareTrader.TargetPosTicks
import FlareTrader.TargetPosOrders
import FlareTrader.TargetPosPending
import FlareTrader.TargetPosCloses
import FlareTrader.BarGenerator
import FlareTrader.PositionRecovery
import FlareTrader.OrderBook
import FlareTrader.MessageFraming
import FlareTrader.PositionMoves
import FlareTrader.PositionYesterday
import FlareTrader.StartupHoldings
import FlareTrader.Timedelta
import FlareTrader.GregorianCalendar
import FlareTrader.Date
import FlareTrader.DateOrder
import FlareTrader.DatetimeMoves
import FlareTrader.FixedWidth
import FlareTrader.Strptime
import FlareTrader.RingBufferConcurrency
import FlareTrader.Custody
import FlareTrader.LockfreeRing
import FlareTrader.LockfreeWindow
import FlareTrader.LockfreeQueue
import FlareTrader.LockfreeHolders
import FlareTrader.TargetPosCancels
import FlareTrader.WeightedMean
import FlareTrader.PositionFills
import FlareTrader.PositionReads
import FlareTrader.OrderBookIds
import FlareTrader.OrderBookTick
import FlareTrader.DatetimeDifferences
import FlareTrader.UnixSeconds
import FlareTrader.StrptimeInputs
import FlareTrader.SortedMultimap
import FlareTrader.TimerThread
import FlareTrader.LockfreeNumbers
import FlareTrader.MessagePasses
import FlareTrader.Rounding
import FlareTrader.AdvancedSplit
import FlareTrader.Occurrences
import FlareTrader.CsvReader
import FlareTrader.ByteMemory
import FlareTrader.JournalFrames
import FlareTrader.JournalPages
import FlareTrader.JournalViews
import FlareTrader.JournalStores
import FlareTrader.JournalProcesses
import FlareTrader.JournalWriting
import FlareTrader.JournalReading
import FlareTrader.JournalRuns
import FlareTrader.JournalReaders
import FlareTrader.JournalProgress
import FlareTrader.JournalLeftOpen
import FlareTrader.JournalGuarantees
import FlareTrader.OmsAnswers
import FlareTrader.RecordLayout
import FlareTrader.TraderMessages
import FlareTrader.JournalOutbox
import FlareTrader.TradingLink
import FlareTrader.TradingProgress
import FlareTrader.TradingGuarantees

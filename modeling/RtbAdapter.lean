import RtbAdapter.ActivityCounts
import RtbAdapter.Adapter
import RtbAdapter.AdapterLists
import RtbAdapter.AdapterMethods
import RtbAdapter.AdapterPairing
import RtbAdapter.AdapterReloads
import RtbAdapter.AdapterReplies
import RtbAdapter.AesBlock
import RtbAdapter.AesText
import RtbAdapter.AudienceRule
import RtbAdapter.AudienceTable
import RtbAdapter.BaiduTables
import RtbAdapter.BanRules
import RtbAdapter.BaseCoding
import RtbAdapter.BiddingStatus
import RtbAdapter.BinaryTrie
import RtbAdapter.BlockStreams
import RtbAdapter.ByteMemory
import RtbAdapter.ByteWords
import RtbAdapter.CText
import RtbAdapter.CacheLengths
import RtbAdapter.ClickPrice
import RtbAdapter.ClickRedirects
import RtbAdapter.ClosedSessions
import RtbAdapter.CodecRoundTrip
import RtbAdapter.ColouredTrees
import RtbAdapter.ConHash
import RtbAdapter.ConfigFiles
import RtbAdapter.CreativeKeys
import RtbAdapter.DealRank
import RtbAdapter.DecoderBounds
import RtbAdapter.DomainSuffixes
import RtbAdapter.DspReplies
import RtbAdapter.ElapsedTime
import RtbAdapter.EncoderBounds
import RtbAdapter.EngineUpdate
import RtbAdapter.EventTable
import RtbAdapter.Exchange
import RtbAdapter.ExchangeBalance
import RtbAdapter.ExchangeStatus
import RtbAdapter.ExportedDocuments
import RtbAdapter.FeatureDictionary
import RtbAdapter.FeatureNames
import RtbAdapter.FeatureVectors
import RtbAdapter.FileLines
import RtbAdapter.FilterKeys
import RtbAdapter.FilterMark
import RtbAdapter.FilterOwnership
import RtbAdapter.FilterReferences
import RtbAdapter.FilterResults
import RtbAdapter.FilterTables
import RtbAdapter.FloatFormat
import RtbAdapter.GlobalBan
import RtbAdapter.HashRing
import RtbAdapter.HeldCounts
import RtbAdapter.HttpAcceptance
import RtbAdapter.HttpParser
import RtbAdapter.HttpRoundTrip
import RtbAdapter.InverseMaps
import RtbAdapter.IpArea
import RtbAdapter.JsonAcceptance
import RtbAdapter.JsonReader
import RtbAdapter.JsonRecovery
import RtbAdapter.JsonRoundTrip
import RtbAdapter.JsonValues
import RtbAdapter.JsonWriter
import RtbAdapter.KeyValueStream
import RtbAdapter.KeyedFields
import RtbAdapter.KeywordMatch
import RtbAdapter.KeywordRule
import RtbAdapter.KeywordTree
import RtbAdapter.LandingPages
import RtbAdapter.LastFilter
import RtbAdapter.LoadedOrders
import RtbAdapter.LoopBuffer
import RtbAdapter.MarkupMacros
import RtbAdapter.MatchedOrders
import RtbAdapter.Md5Digests
import RtbAdapter.Md5Rounds
import RtbAdapter.MessageQueues
import RtbAdapter.NetBase
import RtbAdapter.NetProtocol
import RtbAdapter.NetSession
import RtbAdapter.ObjectLedger
import RtbAdapter.OrderFreshness
import RtbAdapter.OrderInterference
import RtbAdapter.OrderLifetime
import RtbAdapter.OrderPlaces
import RtbAdapter.OutputCache
import RtbAdapter.PacingDecision
import RtbAdapter.PacketFraming
import RtbAdapter.PacketReassembly
import RtbAdapter.Packets
import RtbAdapter.PatternSearch
import RtbAdapter.PatternShifts
import RtbAdapter.PatternTree
import RtbAdapter.PendingAmounts
import RtbAdapter.PendingRequests
import RtbAdapter.PidData
import RtbAdapter.PingPong
import RtbAdapter.PlanningData
import RtbAdapter.PlanningUnit
import RtbAdapter.PlanningUpdate
import RtbAdapter.PriceRanks
import RtbAdapter.PriceReferences
import RtbAdapter.PriceRules
import RtbAdapter.QueryParameters
import RtbAdapter.RbRing
import RtbAdapter.RbTree
import RtbAdapter.RbTreeCheck
import RtbAdapter.RbTreeFixups
import RtbAdapter.RbTreeOperations
import RtbAdapter.RealTimeControl
import RtbAdapter.RealTimeInfo
import RtbAdapter.RecordWalk
import RtbAdapter.RecordWriter
import RtbAdapter.RejectedPatterns
import RtbAdapter.RemoteBidding
import RtbAdapter.RemoteMatch
import RtbAdapter.RemoteRequest
import RtbAdapter.RequestAccounts
import RtbAdapter.RequestExport
import RtbAdapter.RequestLedger
import RtbAdapter.RequestRoundTrip
import RtbAdapter.ResponseBuild
import RtbAdapter.ResponseRoundTrip
import RtbAdapter.RingBuffer
import RtbAdapter.RtbBase
import RtbAdapter.RtbEngine
import RtbAdapter.RtbFilters
import RtbAdapter.ScheduleTimes
import RtbAdapter.SessionBuffer
import RtbAdapter.SessionRegistry
import RtbAdapter.SessionShutdown
import RtbAdapter.SessionTimeouts
import RtbAdapter.SessionWrite
import RtbAdapter.ShiftedScan
import RtbAdapter.StepRuns
import RtbAdapter.TanxDevices
import RtbAdapter.TanxTables
import RtbAdapter.Targeting
import RtbAdapter.TextPieces
import RtbAdapter.TextReplacement
import RtbAdapter.TimeoutSweep
import RtbAdapter.UrlCoding
import RtbAdapter.UserInfo
import RtbAdapter.UserInfoPairs
import RtbAdapter.WeightedDraw
import RtbAdapter.ZlibCalls

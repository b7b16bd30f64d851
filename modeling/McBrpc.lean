import McBrpc.NameAgent.WatchSession
import McBrpc.LbStat.HashClear
import McBrpc.LbStat.StrategyCrash
import McBrpc.LbStat.ReportConservation
import McBrpc.LbStat.CountAccounting
import McBrpc.LbStat.PassRateRange
import McBrpc.Log.AsyncLogSink
import McBrpc.Mysql.DBPool
import McBrpc.Validator.RuleSatisfaction
import McBrpc.Bvar.SeriesDescription
import McBrpc.Bvar.SeriesIdentity
import McBrpc.Builtin.ZeroFill
import McBrpc.Builtin.MetricsBody
import McBrpc.Policy.WeightedFairness
import McBrpc.Policy.WeightedRandomizedShare
import McBrpc.Policy.LastChance
import McBrpc.Details.WatcherView
import McBrpc.Policy.LocalityAwareConsistency
import McBrpc.Bvar.ListExposed
import McBrpc.Bvar.ReducerSampler
import McBrpc.Brpc.CallReports
import McBrpc.Json2pb.EncodeDecode
import McBrpc.Butil.RecordRoundTrip
import McBrpc.Brpc.RedisCommandParsing
import McBrpc.Brpc.RedisReplyCuts
import McBrpc.Brpc.RedisReplyCopy
import McBrpc.Brpc.Stream
import McBrpc.Brpc.RedisCommandLayout
import McBrpc.Details.HpackSession
import McBrpc.Policy.Http2Pack
import McBrpc.LbStat.HashBounds
import McBrpc.LbStat.PassRateMonotone
import McBrpc.Log.LogWindow
import McBrpc.NameAgent.RoutingStrategies
import McBrpc.Policy.Http2HeaderBlocks
import McBrpc.Policy.Http2Limits

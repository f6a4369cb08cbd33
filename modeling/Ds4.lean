import Ds4.Bytes
import Ds4.OpenAddressing
import Ds4.Tokenizer.Vocab
import Ds4.Tokenizer.Bpe
import Ds4.Tokenizer.Lossless
import Ds4.Server.JsonText
import Ds4.Server.JsonValue
import Ds4.Server.JsonArgs
import Ds4.Server.Dsml
import Ds4.Server.DsmlRoundTrip
import Ds4.Server.FlatBlock
import Ds4.Server.StreamLimit
import Ds4.Server.ToolStream
import Ds4.Server.LiveStream
import Ds4.ByteStore
import Ds4.Store.KvStore
import Ds4.Store.Written
import Ds4.Store.Budget
import Ds4.Store.Lookup
import Ds4.Engine.Half
import Ds4.Engine.Store
import Ds4.Engine.Payload
import Ds4.Engine.PayloadRoundTrip
import Ds4.Server.ResponsesConsistent
import Ds4.Server.AnthropicBlocks
import Ds4.Dist.PrefixSafe
import Ds4.Dist.Coordinator
import Ds4.Dist.Finished
import Ds4.Server.JsonLiteral
import Ds4.Server.StreamedText
import Ds4.Server.ThinkingPrefix
import Ds4.Recency
import Ds4.Server.DecodeTracker
import Ds4.Server.Prompt
import Ds4.Server.PromptReplay
import Ds4.Server.Protocol
import Ds4.Server.ToolMemory
import Ds4.Server.ToolMemoryInvariant
import Ds4.Server.ToolMemoryRuns
import Ds4.Server.TrackerSplits
import Ds4.Server.WorkerRuns
import Ds4.Server.ToolMap
import Ds4.Server.ToolMapBlocks
import Ds4.Server.ToolMapRuns
import Ds4.Server.CallArguments
import Ds4.Server.DsmlRepair
import Ds4.Server.RepairCuts
import Ds4.Server.TruncatedRepair
import Ds4.Engine.FailedLoad
import Ds4.Engine.Gguf
import Ds4.Engine.GgufBounds
import Ds4.Server.HttpFraming
import Ds4.BoundedSort
import Ds4.Sampling.Nucleus
import Ds4.Sampling.SpecLaw
import Ds4.Sampling.Truncation
import Ds4.Server.JsonCursor
import Ds4.Chop
import Ds4.Tokenizer.JoyaiRules
import Ds4.Tokenizer.JoyaiSplit
import Ds4.Dist.ActivationCodec
import Ds4.Agent.PagedRead
import Ds4.Agent.Edit
import Ds4.Engine.RawRing
import Ds4.Dist.Recovery
import Ds4.Agent.StrippedSession
import Ds4.Agent.Compaction
import Ds4.BlockBuffer
import Ds4.Fips180
import Ds4.Store.LongestPrefix
import Ds4.Store.Sha1
import Ds4.Engine.DrafterState
import Ds4.Store.Continued
import Ds4.UpdateStream
import Ds4.Store.InPlace
import Ds4.Dist.RouteBlob
import Ds4.Dist.ResultFrame
import Ds4.Dist.WorkFrame
import Ds4.Server.LiveBindings
import Ds4.Engine.SessionSync
import Ds4.Server.DecodeText
import Ds4.Server.StreamDeltas
import Ds4.Server.StopHold
import Ds4.Rax.Dictionary
import Ds4.Agent.DsmlParser
import Ds4.Agent.DsmlStream
import Ds4.Web.Cdp
import Ds4.Agent.StreamText
import Ds4.Agent.StreamReading
import Ds4.Agent.WorkerTurn
import Ds4.Engine.GreedyStream

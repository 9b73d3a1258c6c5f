import Sglang.UnifiedPool.SinkIsolation
import Sglang.MultiEnded.ByteDisjoint
import Sglang.MultiEnded.Capacity
import Sglang.MultiEnded.Memory
import Sglang.Support.SlotMemory
import Sglang.UnifiedPool.SlotBytes
import Sglang.Radix.Accounting
import Sglang.Radix.PrefixMap
import Sglang.Radix.Events
import Sglang.Radix.NoLeak
import Sglang.Radix.Release
import Sglang.PagedAlloc.SwaConservation
import Sglang.PagedAlloc.SwaAtomic
import Sglang.PagedAlloc.WindowEviction
import Sglang.PagedAlloc.PageConservation
import Sglang.Storage.PoolHits
import Sglang.Router.KvRemoval
import Sglang.Router.BlockHashes
import Sglang.Gateway.ManualPolicy
import Sglang.Gateway.TenantExact
import Sglang.Gateway.WorkerRegistry
import Sglang.Gateway.CircuitBreaker
import Sglang.Parser.ReasoningSplit
import Sglang.Parser.ApertusBlocks
import Sglang.Parser.CohereStream
import Sglang.FunctionCall.ToolIndexing
import Sglang.FunctionCall.Qwen3CoderBlocks
import Sglang.FunctionCall.Glm4MoeFrames
import Sglang.Streaming.Sharing
import Sglang.Speculative.KvReserve
import Sglang.Speculative.GrammarTree
import Sglang.Disaggregation.StagingRing
import Sglang.Gateway.ConcurrencyLimit
import Sglang.Lora.Registry

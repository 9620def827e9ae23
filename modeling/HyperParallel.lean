import HyperParallel.Lib.Rendezvous
import HyperParallel.Pipeline.MetaStep
import HyperParallel.Pipeline.Schedule1F1B
import HyperParallel.Pipeline.AddSendRecv
import HyperParallel.Pipeline.SplitOverlapDxdw
import HyperParallel.Pipeline.Interleaved
import HyperParallel.Pipeline.InterleavedRounds
import HyperParallel.Pipeline.InterleavedColumns
import HyperParallel.Pipeline.ColumnOrder
import HyperParallel.Pipeline.InterleavedOrder
import HyperParallel.Pipeline.DetectCycle
import HyperParallel.Pipeline.Fsdp
import HyperParallel.Pipeline.FsdpReduce
import HyperParallel.Pipeline.AutoAlignTimetable
import HyperParallel.Lib.Box
import HyperParallel.Checkpoint.Metadata
import HyperParallel.Checkpoint.ReadItems
import HyperParallel.Checkpoint.ReadItemsCorrect
import HyperParallel.DTensor.Expand
import HyperParallel.DTensor.AllToAll
import HyperParallel.DTensor.IndexSelect
import HyperParallel.DTensor.Layout
import HyperParallel.DTensor.Placement
import HyperParallel.DTensor.PlacementRoundTrip
import HyperParallel.DTensor.ReshapeCorrect
import HyperParallel.DTensor.Ragged
import HyperParallel.DTensor.AllToAll
import HyperParallel.DTensor.Sharding
import HyperParallel.Data.BatchSampler
import HyperParallel.Data.BatchSamplerCorrect
import HyperParallel.Lib.Buckets
import HyperParallel.ActivationMemory.PinnedMemoryPool
import HyperParallel.Checkpoint.LoadPlan
import HyperParallel.Checkpoint.BroadcastLoad
import HyperParallel.Checkpoint.BroadcastBatcher
import HyperParallel.Checkpoint.BroadcastOrder
import HyperParallel.Checkpoint.RaggedBoxes
import HyperParallel.Data.DynamicBatchCorrect
import HyperParallel.Data.GPTDataset
import HyperParallel.Data.GPTDatasetCorrect
import HyperParallel.Checkpoint.SaveCache
import HyperParallel.Checkpoint.SaveOwnership
import HyperParallel.Checkpoint.SaveTensor
import HyperParallel.Checkpoint.SaveTensorClash
import HyperParallel.Checkpoint.StorageExchange
import HyperParallel.Checkpoint.StorageExchangeRuns
import HyperParallel.FullyShard.HSDPParam
import HyperParallel.FullyShard.ParamGroup
import HyperParallel.FullyShard.ParamGroupRuns
import HyperParallel.FullyShard.ShardAxes
import HyperParallel.FullyShard.HSDPParamCorrect
import HyperParallel.ActivationMemory.PinnedMemoryPoolSound
import HyperParallel.WeightSync.ActorRolloutRuns
import HyperParallel.WeightSync.CanonicalRows
import HyperParallel.FullyShard.FusedBuffersCorrect
import HyperParallel.MegaMoe.ReadyHandshakeProgress
import HyperParallel.MegaMoe.RuntimeConfig
import HyperParallel.MegaMoe.RuntimeImage
import HyperParallel.MegaMoe.RuntimeReads
import HyperParallel.MegaMoe.RoutedRows
import HyperParallel.HyperOffload.ReplaySound
import HyperParallel.HyperOffload.GreedyPlanner
import HyperParallel.Lib.Blocks
import HyperParallel.Lib.Exchange
import HyperParallel.Lib.Tensor
import HyperParallel.Lib.Views
import HyperParallel.ContextParallel.Collectives
import HyperParallel.ContextParallel.HybridAttention
import HyperParallel.ExpertParallel.AllToAllDispatcher
import HyperParallel.ExpertParallel.RoutedTokens
import HyperParallel.ExpertParallel.Deredundency
import HyperParallel.ExpertParallel.DeredundencyFlow
import HyperParallel.ExpertParallel.DeredundencyAgrees
import HyperParallel.Agentic.SessionAligned
import HyperParallel.Agentic.RunnerLockstep
import HyperParallel.Optimizer.MuonShardCorrect
import HyperParallel.Pipeline.StageMapping
import HyperParallel.Data.OfflinePreparation
import HyperParallel.Shmem.RuntimeRuns
import HyperParallel.Checkpoint.FlattenCorrect
import HyperParallel.Data.CpBatch
import HyperParallel.Data.SequenceBoundaries
import HyperParallel.Data.BlendedDataset
import HyperParallel.DTensor.MeshSlices
import HyperParallel.DTensor.GroupTemplate
import HyperParallel.Pipeline.PipelineSwapCorrect
import HyperParallel.Shmem.TransferChunking
import HyperParallel.Rl.Advantage
import HyperParallel.ContextParallel.Adjoint
import HyperParallel.HyperOffload.Presence
import HyperParallel.HyperOffload.Footprint
import HyperParallel.Lib.Region
import HyperParallel.WeightSync.DirectReshard
import HyperParallel.WeightSync.DirectReshardBuckets
import HyperParallel.WeightSync.DirectReshardRuns
import HyperParallel.WeightSync.DirectReshardCorrect
import HyperParallel.Lib.LittleEndian
import HyperParallel.Data.IndexedFormat
import HyperParallel.Data.IndexedFormatCorrect
import HyperParallel.Data.S3BinReader
import HyperParallel.Checkpoint.SaveThenLoad
import HyperParallel.Pipeline.MPipeTranspose
import HyperParallel.Pipeline.MPipeTransposeCorrect
import HyperParallel.Lib.Split
import HyperParallel.Checkpoint.ConversionOps
import HyperParallel.Checkpoint.ConversionOpsCorrect

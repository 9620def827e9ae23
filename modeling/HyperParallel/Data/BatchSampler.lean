import Mathlib.Data.Int.Notation
import Mathlib.Data.List.Basic

/-!
# The data-parallel batch sampler

`data/parallel/batch_sampler.py`: every data-parallel rank computes on its own which sample
indices it yields.

* `DatasetBatchSampler.init`, `loadStateDict`, `iter`: one sampler;
* `session`: what all ranks of one world size yield between two states;
* `epochRun`: an epoch in several sessions, each of another world size.

`random.Random(seed).shuffle(list(range(n)))` is the parameter `shuffle seed n`.
-/

namespace HyperParallel.Data

/-- What the samplers raise. -/
inductive SamplerError
  /-- `{name} must be a positive integer` -/
  | notPositive (name : String)
  /-- `consumed_samples must be in [0, total_samples]` -/
  | consumedSamplesRange
  /-- `dp_rank must be in [0, {dp_world_size}), but got {dp_rank}` -/
  | dpRankRange (dpWorldSize dpRank : ℕ)
  /-- `global_batch_size must be divisible by micro_batch_size * dp_world_size` -/
  | globalBatchSizeNotDivisible
  /-- `cyclic sampling requires drop_last=True` -/
  | cyclicRequiresDropLast
  /-- `cyclic sampling does not support a rearrangement map` -/
  | cyclicRearrangementMap
  /-- `elastic DP resume requires data_sharding=False` -/
  | elasticDataSharding
  /-- `elastic DP resume requires an unchanged global_batch_size` -/
  | globalBatchSizeChanged
  /-- `sampler state must align to a global optimizer batch` -/
  | stateNotAligned
  /-- `cyclic Dataset must contain one complete global micro-batch` -/
  | noCompleteMicroBatch
  /-- `cyclic consumed_samples must align to a distributed micro-batch` -/
  | consumedNotAligned
  deriving DecidableEq, Repr

/-- `sampler_type`, with the options of the cyclic sampler. -/
inductive SamplerType
  | single
  | cyclic (dataSharding : Bool) (seed : ℤ)
  deriving DecidableEq, Repr

/-- `data_sharding`. -/
def SamplerType.dataSharding : SamplerType → Bool
  | .single => false
  | .cyclic dataSharding _ => dataSharding

/-- The sampler options that do not depend on the rank. -/
structure SamplerOptions where
  totalSamples : ℕ
  microBatchSize : ℕ
  globalBatchSize : ℕ
  dropLast : Bool
  indexMapping : Option (ℕ → ℕ)
  samplerType : SamplerType

/-- `_DatasetBatchSampler` and `_CyclicDatasetBatchSampler`. -/
structure DatasetBatchSampler extends SamplerOptions where
  dpRank : ℕ
  dpWorldSize : ℕ
  consumedSamples : ℕ
  epoch : ℕ

/-- `state_dict()`. -/
structure SamplerState where
  consumedSamples : ℕ
  epoch : ℕ
  globalBatchSize : ℕ
  dpWorldSize : ℕ
  deriving DecidableEq, Repr

namespace SamplerOptions

variable (o : SamplerOptions)

/-- `global_micro_batch_size`. -/
def globalMicroBatchSize (dpWorldSize : ℕ) : ℕ := o.microBatchSize * dpWorldSize

/-- `_active_samples` before its check. -/
def activeSamples (dpWorldSize : ℕ) : ℕ :=
  o.totalSamples - o.totalSamples % o.globalMicroBatchSize dpWorldSize

/-- `_resolve_index`. -/
def resolveIndex (logicalIndex : ℕ) : ℕ :=
  match o.indexMapping with
  | none => logicalIndex
  | some mapping => mapping logicalIndex

end SamplerOptions

/-- The checks of `__init__`, in the source's order. -/
def DatasetBatchSampler.init (o : SamplerOptions) (dpRank dpWorldSize consumedSamples : ℕ) :
    Except SamplerError DatasetBatchSampler :=
  if o.samplerType ≠ .single ∧ o.indexMapping.isSome then .error .cyclicRearrangementMap
  else if o.totalSamples = 0 then .error (.notPositive "total_samples")
  else if o.microBatchSize = 0 then .error (.notPositive "micro_batch_size")
  else if dpWorldSize = 0 then .error (.notPositive "dp_world_size")
  else if o.totalSamples < consumedSamples then .error .consumedSamplesRange
  else if dpWorldSize ≤ dpRank then .error (.dpRankRange dpWorldSize dpRank)
  else if o.globalBatchSize = 0 then .error (.notPositive "global_batch_size")
  else if o.globalBatchSize % o.globalMicroBatchSize dpWorldSize ≠ 0 then
    .error .globalBatchSizeNotDivisible
  else if o.samplerType ≠ .single ∧ !o.dropLast then .error .cyclicRequiresDropLast
  else .ok { o with dpRank, dpWorldSize, consumedSamples, epoch := 0 }

namespace DatasetBatchSampler

variable (s : DatasetBatchSampler)

/-- `load_state_dict`, for a sampler without `enable_source_batch_resume`. -/
def loadStateDict (state : SamplerState) : Except SamplerError DatasetBatchSampler :=
  if s.samplerType.dataSharding ∧ state.dpWorldSize ≠ s.dpWorldSize then
    .error .elasticDataSharding
  else if s.totalSamples < state.consumedSamples then .error .consumedSamplesRange
  else if state.globalBatchSize ≠ s.globalBatchSize then .error .globalBatchSizeChanged
  else if state.consumedSamples % s.globalBatchSize ≠ 0 then .error .stateNotAligned
  else .ok { s with consumedSamples := state.consumedSamples, epoch := state.epoch }

/-- `state_dict`. -/
def stateDict : SamplerState where
  consumedSamples := s.consumedSamples
  epoch := s.epoch
  globalBatchSize := s.globalBatchSize
  dpWorldSize := s.dpWorldSize

/-- One round of a generator: what it yields, if anything, and the `consumed_samples` it leaves. -/
abbrev Round := Option (List ℕ) × ℕ

/-- The loop of `_DatasetBatchSampler.__iter__`; `fuel` bounds the number of rounds. -/
def singleRounds : ℕ → ℕ → List Round
  | 0, _ => []
  | fuel + 1, consumed =>
      if consumed < s.totalSamples then
        let blockStop := min (consumed + s.globalMicroBatchSize s.dpWorldSize) s.totalSamples
        if s.dropLast ∧ blockStop - consumed < s.globalMicroBatchSize s.dpWorldSize then
          [(none, s.totalSamples)]
        else
          let localStart := consumed + s.dpRank * s.microBatchSize
          let localStop := min (localStart + s.microBatchSize) blockStop
          if blockStop ≤ localStart then (none, blockStop) :: singleRounds fuel blockStop
          else (some ((List.range' localStart (localStop - localStart)).map s.resolveIndex),
            blockStop) :: singleRounds fuel blockStop
      else []

/-- The loop of `_CyclicDatasetBatchSampler.__iter__` over `rank_indices`. -/
def cyclicRounds : ℕ → List ℕ → List ℕ → List Round
  | _, _, [] => []
  | consumed, localBatch, index :: rankIndices =>
      if (localBatch ++ [index]).length = s.microBatchSize then
        (some (localBatch ++ [index]), consumed + s.globalMicroBatchSize s.dpWorldSize) ::
          cyclicRounds (consumed + s.globalMicroBatchSize s.dpWorldSize) [] rankIndices
      else cyclicRounds consumed (localBatch ++ [index]) rankIndices

/-- The slice `l[start::step]`. -/
def strided (step : ℕ) : ℕ → List ℕ → List ℕ
  | _, [] => []
  | 0, a :: l => a :: strided step (step - 1) l
  | start + 1, _ :: l => strided step start l

/-- `rank_indices`. -/
def rankIndices (shuffle : ℤ → ℕ → List ℕ) (dataSharding : Bool) (seed : ℤ) : List ℕ :=
  let activeSamples := s.activeSamples s.dpWorldSize
  if dataSharding then
    let bucketSize := activeSamples / s.dpWorldSize
    let bucketOffset := s.consumedSamples / s.dpWorldSize
    ((shuffle (seed + s.epoch) bucketSize).drop bucketOffset).map (s.dpRank * bucketSize + ·)
  else
    strided s.dpWorldSize s.dpRank
      ((shuffle (seed + s.epoch) activeSamples).drop s.consumedSamples)

/-- `__iter__`. -/
def iter (shuffle : ℤ → ℕ → List ℕ) : Except SamplerError (List Round) :=
  match s.samplerType with
  | .single => .ok (s.singleRounds s.totalSamples s.consumedSamples)
  | .cyclic dataSharding seed =>
      if s.activeSamples s.dpWorldSize = 0 then .error .noCompleteMicroBatch
      else if s.consumedSamples % s.globalMicroBatchSize s.dpWorldSize ≠ 0 then
        .error .consumedNotAligned
      else .ok (s.cyclicRounds s.consumedSamples [] (s.rankIndices shuffle dataSharding seed))

end DatasetBatchSampler

/-! ### Runs -/

section Run

variable (o : SamplerOptions) (shuffle : ℤ → ℕ → List ℕ)

/-- One rank builds its sampler, loads the state and iterates. -/
def rankRounds (dpWorldSize : ℕ) (state : SamplerState) (dpRank : ℕ) :
    Except SamplerError (List DatasetBatchSampler.Round) := do
  let sampler ← DatasetBatchSampler.init o dpRank dpWorldSize 0
  let sampler ← sampler.loadStateDict state
  sampler.iter shuffle

/-- The rounds up to a value of `consumed_samples`. -/
def roundsUntil (stop : ℕ) (rounds : List DatasetBatchSampler.Round) :
    List DatasetBatchSampler.Round :=
  rounds.takeWhile fun round => round.2 ≤ stop

/-- The indices that rounds yield. -/
def yielded (rounds : List DatasetBatchSampler.Round) : List ℕ :=
  rounds.flatMap fun round => round.1.getD []

/-- The `consumed_samples` after rounds that started at `start`. -/
def consumedAfter (start : ℕ) (rounds : List DatasetBatchSampler.Round) : ℕ :=
  (rounds.getLast?.map Prod.snd).getD start

/-- A stretch of an epoch: the world size, and the `consumed_samples` of the state it saves. -/
structure Session where
  dpWorldSize : ℕ
  stop : ℕ
  deriving DecidableEq, Repr

/-- What all ranks yield in a session. -/
def session (state : SamplerState) (s : Session) : Except SamplerError (List ℕ) := do
  let rounds ← (List.range s.dpWorldSize).mapM (rankRounds o shuffle s.dpWorldSize state)
  return rounds.flatMap fun rounds => yielded (roundsUntil s.stop rounds)

/-- Every rank stands at the state that the session saves, on an optimizer-batch boundary. -/
def savesAt (state : SamplerState) (s : Session) : Bool :=
  s.stop % o.globalBatchSize == 0 && (List.range s.dpWorldSize).all fun dpRank =>
    match rankRounds o shuffle s.dpWorldSize state dpRank with
    | .ok rounds => consumedAfter state.consumedSamples (roundsUntil s.stop rounds) == s.stop
    | .error _ => false

/-- What all ranks yield in the sessions of an epoch; the last one, of world size `last`, is not
interrupted.  `none` when a session raises, has no rank, or never stands where it is saved. -/
def epochRun : SamplerState → List Session → ℕ → Option (List ℕ)
  | state, [], last =>
      if 0 < last then (session o shuffle state ⟨last, o.totalSamples⟩).toOption else none
  | state, s :: sessions, last =>
      if 0 < s.dpWorldSize ∧ savesAt o shuffle state s then do
        let indices ← (session o shuffle state s).toOption
        let rest ← epochRun { state with consumedSamples := s.stop, dpWorldSize := s.dpWorldSize }
          sessions last
        return indices ++ rest
      else none

/-- The state before an epoch. -/
def epochStart (epoch dpWorldSize : ℕ) : SamplerState where
  consumedSamples := 0
  epoch := epoch
  globalBatchSize := o.globalBatchSize
  dpWorldSize := dpWorldSize

end Run

end HyperParallel.Data

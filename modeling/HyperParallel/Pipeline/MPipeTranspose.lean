import HyperParallel.Lib.Shares
import HyperParallel.Pipeline.Interleaved

/-!
# The MPipe transpose schedule

`pipeline_parallel/mpipe/sampler.py` and the orders of `pipeline_parallel/mpipe/schedule.py`.

* `mpipeOwnedMicros`, `PPRankOwnedSampler`: the micro-batches of a rank, and the samples it loads;
* `ScheduleMPipeTranspose.constructExecOrder`: the prefix of a rank, the body of the interleaved
  schedule and the suffix of the owner backward;
* `ScheduleMPipeTranspose.network`: the ranks with blocking transfers.
-/

open Rendezvous

namespace HyperParallel.Pipeline

/-! ### Owners -/

inductive OverflowMode
  | full
  | min
  deriving DecidableEq, Repr

/-- `mpipe_owned_micros`, ascending -/
def mpipeOwnedMicros (ppSize microBatchNum ppRank : ℕ) (mode : OverflowMode) : List ℕ :=
  let nt := Nat.min ppSize microBatchNum
  if nt ≤ ppRank then []
  else match mode with
    | .full => (List.range microBatchNum).filter fun m => m % nt = ppRank
    | .min => if ppRank = 0 then 0 :: List.range' nt (microBatchNum - nt) else [ppRank]

/-- `PPRankOwnedSampler` -/
structure PPRankOwnedSampler where
  base : List ℕ
  ownedMicros : List ℕ
  microBs : ℕ
  ppMicroBatchNum : ℕ

namespace PPRankOwnedSampler

variable (s : PPRankOwnedSampler)

def stepSize : ℕ := s.ppMicroBatchNum * s.microBs

/-- The owned slots of a chunk. -/
def slots (chunk : List ℕ) : List ℕ :=
  s.ownedMicros.flatMap fun m => (chunk.take ((m + 1) * s.microBs)).drop (m * s.microBs)

/-- `__iter__`: the chunk that is being filled, and what has been yielded. -/
def iterStep (state : List ℕ × List ℕ) (idx : ℕ) : List ℕ × List ℕ :=
  let chunk := state.1 ++ [idx]
  if chunk.length = s.stepSize then ([], state.2 ++ s.slots chunk) else (chunk, state.2)

/-- `__iter__` -/
def iter : List ℕ := (s.base.foldl s.iterStep ([], [])).2

/-- `__len__` -/
def len : Except String ℕ :=
  if s.stepSize = 0 then .error "integer division or modulo by zero"
  else .ok (s.base.length / s.stepSize * s.ownedMicros.length * s.microBs)

end PPRankOwnedSampler

/-! ### The orders -/

/-- `MpipeStepType` -/
inductive MPipeStepType
  | paramBroadcast
  | transposeFwd
  | fwdSend
  | fwdRecv
  | graphSend
  | graphRecv
  | transposeBwd
  | gradSend
  | gradRecvWithBackward
  | gradReduce
  deriving DecidableEq, Repr

/-- A step: of the body, a `DATA_*` step with the stage index `-1`, or an MPipe step. -/
inductive MPipeStep
  | body (step : MetaStep)
  | data (type : MetaStepType) (microIndex : ℕ)
  | mpipe (type : MPipeStepType) (microIndex : ℕ)
  deriving DecidableEq, Repr

/-- What a transfer of the prefix carries: data, features, or the input of the graph. -/
inductive PrefixKind
  | data
  | features
  | graph
  deriving DecidableEq, Repr

/-- `_PREFIX_SEND_TYPES` -/
def PrefixKind.sendStep (m : ℕ) : PrefixKind → MPipeStep
  | data => .data .dataSend m
  | features => .mpipe .fwdSend m
  | graph => .mpipe .graphSend m

/-- `_PREFIX_RECV_TYPES` -/
def PrefixKind.recvStep (m : ℕ) : PrefixKind → MPipeStep
  | data => .data .dataRecv m
  | features => .mpipe .fwdRecv m
  | graph => .mpipe .graphRecv m

/-- `ScheduleMPipeTranspose`: the body does not overlap, and `owner_backward` is only effective with
a trainable preprocess. -/
structure ScheduleMPipeTranspose where
  base : ScheduleInterleaved1F1B
  overflowMode : OverflowMode
  hasTrainablePreprocess : Bool
  ownerBackward : Bool
  numTransposeLayers : ℕ
  overlapBF_eq : base.overlapBF = false
  enableDxdwSplit_eq : base.enableDxdwSplit = false
  trainable_of_ownerBackward : ownerBackward = true → hasTrainablePreprocess = true

namespace ScheduleMPipeTranspose

variable (c : ScheduleMPipeTranspose)

/-- `num_transpose_micro_batches` -/
def nt : ℕ := Nat.min c.base.realStageNum c.base.microBatchNum

/-- `owner_of` -/
def ownerOf (micro : ℕ) : ℕ :=
  match c.overflowMode with
  | .min => if c.nt ≤ micro then 0 else micro
  | .full => micro % c.nt

/-- `is_dataload_only` -/
def isDataloadOnly : Bool := c.numTransposeLayers = 0

/-- The kinds of transfers in the order of `_prefix_transfer_steps`. -/
def kinds : List PrefixKind :=
  .data :: if c.isDataloadOnly then []
    else .features :: if c.hasTrainablePreprocess ∧ ¬ c.ownerBackward then [.graph] else []

/-- `_prefix_owned_micros` -/
def prefixOwnedMicros (rank : ℕ) : List ℕ :=
  if c.nt ≤ rank then []
  else match c.overflowMode with
    | .min => [rank]
    | .full => (List.range c.base.microBatchNum).filter fun m => m % c.nt = rank

/-- `_prefix_transfer_steps` -/
def prefixTransferSteps (micros : List ℕ) (step : ℕ → PrefixKind → MPipeStep) : List MPipeStep :=
  c.kinds.flatMap fun kind => micros.map fun m => step m kind

/-- `non_owned`: the micro-batches that rank 0 receives -/
def nonOwned : List ℕ :=
  match c.overflowMode with
  | .min => List.range' 1 (c.nt - 1)
  | .full => (List.range c.base.microBatchNum).filter fun m => m ∉ c.prefixOwnedMicros 0

/-- The steps of the prefix without transfers. -/
def prefixLocalSteps (rank : ℕ) : List MPipeStep :=
  (if c.hasTrainablePreprocess ∧ ¬ c.isDataloadOnly then [.mpipe .paramBroadcast rank] else []) ++
    (c.prefixOwnedMicros rank).flatMap fun m =>
      .data .dataLoad m :: if c.isDataloadOnly then [] else [.mpipe .transposeFwd m]

/-- `_build_transpose_prefix` -/
def buildTransposePrefix (rank : ℕ) : List MPipeStep :=
  c.prefixLocalSteps rank ++
    if rank ≠ 0 then c.prefixTransferSteps (c.prefixOwnedMicros rank) PrefixKind.sendStep
    else c.prefixTransferSteps c.nonOwned PrefixKind.recvStep

/-- `_build_owner_backward_suffix` -/
def buildOwnerBackwardSuffix (rank : ℕ) : List MPipeStep :=
  if rank = 0 then
    ((List.range c.base.microBatchNum).filter fun m => c.ownerOf m ≠ 0).map (.mpipe .gradSend ·)
  else if rank < c.nt then
    ((List.range c.base.microBatchNum).filter fun m => c.ownerOf m = rank).map
      (.mpipe .gradRecvWithBackward ·)
  else []

/-- The body order of a rank without bubbles and data loads. -/
def bodyOrder (rank : ℕ) : List MetaStep :=
  (c.base.constructExecOrder rank).reduceOption.filter fun step =>
    match step with
    | .leaf leaf => leaf.type ≠ .dataLoad
    | .overlap .. => true

/-- One step of rank 0 with what `_insert_rank0_preprocess_steps` puts around it. -/
def patchStep (step : MetaStep) : List MPipeStep :=
  match step with
  | .overlap .. => [.body step]
  | .leaf leaf =>
    (if c.overflowMode = .min ∧ leaf.type = .fwd ∧ leaf.stageIndex = 0 ∧ c.nt ≤ leaf.microIndex then
      .data .dataLoad leaf.microIndex ::
        if c.isDataloadOnly then [] else [.mpipe .transposeFwd leaf.microIndex]
    else []) ++ .body step ::
      if leaf.type = .bwd ∧ leaf.stageIndex = 0 ∧ c.hasTrainablePreprocess ∧ ¬ c.ownerBackward then
        [.mpipe .transposeBwd leaf.microIndex]
      else []

/-- `_insert_rank0_preprocess_steps` -/
def insertRank0PreprocessSteps (order : List MetaStep) : List MPipeStep :=
  if ¬ c.hasTrainablePreprocess ∧ c.overflowMode = .full then order.map .body
  else order.flatMap c.patchStep

/-- `construct_exec_order` -/
def constructExecOrder (rank : ℕ) : List MPipeStep :=
  c.buildTransposePrefix rank ++
    (if rank = 0 then c.insertRank0PreprocessSteps (c.bodyOrder rank)
      else (c.bodyOrder rank).map .body) ++
    if c.ownerBackward then c.buildOwnerBackwardSuffix rank ++ [.mpipe .gradReduce 0] else []

/-! ### The network -/

/-- What a transfer carries: a message of the body, or a micro-batch of the prefix or suffix. -/
inductive Payload
  | body (message : Message)
  | shipped (kind : PrefixKind) (microIndex : ℕ)
  | grad (microIndex : ℕ)
  deriving DecidableEq, Repr

/-- What executing a step asks of the transport. The collectives stand first and last on every rank
and count as local work; the `DATA_*` steps do nothing unless a data iterator is active. -/
def ops (dataIterator : Bool) (step : MPipeStep) : List (Op ℕ Payload MPipeStep) :=
  match step with
  | .body metaStep => metaStep.leaves.map fun leaf =>
      (leaf.toOp c.base.realStageNum dataIterator).map Payload.body fun leaf => .body (.leaf leaf)
  | .data .dataSend m => [if dataIterator then .send 0 (.shipped .data m) else .work step]
  | .data .dataRecv m =>
    [if dataIterator then .recv (c.ownerOf m) (.shipped .data m) else .work step]
  | .mpipe .fwdSend m => [.send 0 (.shipped .features m)]
  | .mpipe .fwdRecv m => [.recv (c.ownerOf m) (.shipped .features m)]
  | .mpipe .graphSend m => [.send 0 (.shipped .graph m)]
  | .mpipe .graphRecv m => [.recv (c.ownerOf m) (.shipped .graph m)]
  | .mpipe .gradSend m => [.send (c.ownerOf m) (.grad m)]
  | .mpipe .gradRecvWithBackward m => [.recv 0 (.grad m)]
  | _ => [.work step]

/-- All ranks executing their orders with blocking sends and receives. -/
def network (dataIterator : Bool) : Net ℕ Payload MPipeStep := fun rank =>
  if rank < c.base.realStageNum then (c.constructExecOrder rank).flatMap (c.ops dataIterator)
  else []

end ScheduleMPipeTranspose

end HyperParallel.Pipeline

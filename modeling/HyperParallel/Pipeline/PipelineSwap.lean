import HyperParallel.Lib.Dict
import HyperParallel.Pipeline.MetaStep
import Mathlib.Data.List.GetD
import Mathlib.Data.List.Sort

/-!
# Swap steps in a pipeline order

`inject_pipeline_swap_steps` of `core/pipeline_parallel/pipeline_swap.py`, on the order of one rank.

* `collectComputeLeaves`: the forward and backward leaves, with the steps that hold them;
* `chunkSwapActions`: where the transfers of a chunk are launched and awaited;
* `injectPipelineSwapSteps`: the order with the transfers.
-/

namespace HyperParallel.PipelineSwap

/-- Every `MetaStepType`: those of a rank's own steps and their transfers, and the others that stand
in an order to which swap steps are added. -/
inductive AnyMetaStepType where
  | plain (type : Pipeline.MetaStepType)
  | overlap (type : Pipeline.OverlapType)
  | batchSendRecv
  | fsdpUnshard | fsdpReshard | fsdpReduceGrad
  | swapLaunchOffload | swapWaitOffload | swapLaunchLoad | swapWaitLoad
  deriving DecidableEq

/-- `LeafStep`, of any step type. -/
structure AnyLeafStep where
  microIndex : ℕ
  type : AnyMetaStepType
  stageIndex : ℕ
  deriving DecidableEq

/-- `MetaStep`, of any step type. -/
structure AnyMetaStep extends AnyLeafStep where
  subSteps : List AnyLeafStep
  deriving DecidableEq

/-- The order of a rank: `none` is a bubble. -/
abbrev Order := List (Option AnyMetaStep)

def minSwapGap : ℕ := 4

def isComputeStep : AnyMetaStepType → Bool
  | .plain .fwd | .plain .bwd | .plain .bwdInput | .plain .bwdWeight => true
  | _ => false

def isCommStep : Option AnyMetaStep → Bool
  | none => false
  | some step => match step.type with
    | .plain .fwdRecv | .plain .fwdSend | .plain .bwdRecv | .plain .bwdSend | .batchSendRecv => true
    | _ => false

def isSwapStep : AnyMetaStepType → Bool
  | .swapLaunchOffload | .swapWaitOffload | .swapLaunchLoad | .swapWaitLoad => true
  | _ => false

def isForward : AnyMetaStepType → Bool
  | .plain .fwd => true
  | _ => false

/-- The leaves that need the activations back: `BWD` and `BWD_INPUT`. -/
def isConsumer : AnyMetaStepType → Bool
  | .plain .bwd | .plain .bwdInput => true
  | _ => false

def isFsdpStep : Option AnyMetaStep → Bool
  | none => false
  | some step => match step.type with
    | .fsdpUnshard | .fsdpReshard | .fsdpReduceGrad => true
    | _ => false

def isCompositeComputeStep (step : AnyMetaStep) : Bool :=
  (step.type = .overlap .overlapFB || step.type = .overlap .overlapBF) && step.subSteps ≠ []

/-- `_iter_compute_leaf_steps` -/
def iterComputeLeafSteps : Option AnyMetaStep → List AnyLeafStep
  | none => []
  | some step =>
    if isComputeStep step.type then [step.toAnyLeafStep]
    else if isCompositeComputeStep step then step.subSteps.filter fun sub => isComputeStep sub.type
    else []

/-- `_ComputeLeaf` -/
structure ComputeLeaf where
  step : AnyLeafStep
  containerIndex : ℕ
  computeIndex : ℕ
  deriving DecidableEq

/-- The key of a chunk. -/
structure Chunk where
  stageIndex : ℕ
  microIndex : ℕ
  deriving DecidableEq

def AnyLeafStep.key (step : AnyLeafStep) : Chunk := ⟨step.stageIndex, step.microIndex⟩

/-- A step in `_collect_compute_leaves`. -/
def collectStep (state : List ComputeLeaf × List ℕ) (entry : Option AnyMetaStep × ℕ) :
    List ComputeLeaf × List ℕ :=
  let leafSteps := iterComputeLeafSteps entry.1
  if leafSteps = [] then state
  else (state.1 ++ leafSteps.map fun step => ⟨step, entry.2, state.2.length⟩,
    state.2 ++ [entry.2])

/-- `_collect_compute_leaves`, with `container_by_compute_index` as a list. -/
def collectComputeLeaves (order : Order) : List ComputeLeaf × List ℕ :=
  order.zipIdx.foldl collectStep ([], [])

/-- A dict of `_index_compute_leaves`. -/
def indexComputeLeaves (isIndexed : AnyMetaStepType → Bool) (leaves : List ComputeLeaf) :
    List (Chunk × ComputeLeaf) :=
  leaves.foldl (fun index leaf =>
    if isIndexed leaf.step.type then Dict.set index leaf.step.key leaf else index) []

/-- `_comm_block_anchor` -/
def commBlockAnchor (order : Order) (index : ℕ) : ℕ :=
  index + ((order.drop (index + 1)).takeWhile isCommStep).length

/-- The type of the send after a compute step. -/
def sendType : AnyMetaStepType → Option AnyMetaStepType
  | .plain .fwd => some (.plain .fwdSend)
  | .plain .bwd | .plain .bwdInput => some (.plain .bwdSend)
  | _ => none

/-- A send of a step, also one in a batch. -/
def isSendOf (step : AnyMetaStep) (send : AnyMetaStepType) : Option AnyMetaStep → Bool
  | none => false
  | some next =>
    (next.type = send && next.stageIndex = step.stageIndex && next.microIndex = step.microIndex) ||
      (next.type = .batchSendRecv && next.subSteps.any fun sub =>
        sub.type = send && sub.stageIndex = step.stageIndex && sub.microIndex = step.microIndex)

/-- `_post_compute_anchor` -/
def postComputeAnchor (order : Order) (index : ℕ) : ℕ :=
  let fallbackAnchor := commBlockAnchor order index
  match order.getD index none with
  | none => fallbackAnchor
  | some step =>
    match sendType step.type with
    | none => fallbackAnchor
    | some send =>
      ((List.range' (index + 1) (fallbackAnchor - index)).find? fun next =>
        isSendOf step send (order.getD next none)).getD fallbackAnchor

/-- An unshard of a stage. -/
def isUnshardOf (stageIndex : ℕ) : Option AnyMetaStep → Bool
  | none => false
  | some step => step.type = .fsdpUnshard && step.stageIndex = stageIndex

/-- `_load_launch_anchor` -/
def loadLaunchAnchor (order : Order) (fwdLeaf bwdLeaf : ComputeLeaf) (computeBetween : List ℕ) :
    ℕ :=
  if order.any isFsdpStep then
    ((List.range' (fwdLeaf.containerIndex + 1)
      (bwdLeaf.containerIndex - 1 - fwdLeaf.containerIndex)).reverse.find? fun index =>
        isUnshardOf bwdLeaf.step.stageIndex (order.getD index none)).getD bwdLeaf.containerIndex
  else computeBetween.getLastD 0

/-- An entry of `_chunk_swap_actions`. -/
structure Action where
  anchor : ℕ
  priority : ℕ
  step : AnyMetaStep

/-- A transfer step of a chunk. -/
def swapStep (key : Chunk) (type : AnyMetaStepType) : AnyMetaStep :=
  ⟨⟨key.microIndex, type, key.stageIndex⟩, []⟩

/-- `_chunk_swap_actions` -/
def chunkSwapActions (order : Order) (containers : List ℕ) (fwdLeaf bwdLeaf : ComputeLeaf) :
    Option (List Action × List Action) :=
  if bwdLeaf.computeIndex < fwdLeaf.computeIndex + minSwapGap then none
  else
    let computeBetween := (List.range' (fwdLeaf.computeIndex + 1)
      (bwdLeaf.computeIndex - (fwdLeaf.computeIndex + 1))).map fun index => containers.getD index 0
    if computeBetween = [] then none
    else
      let key := fwdLeaf.step.key
      let after := [⟨fwdLeaf.containerIndex, 20, swapStep key .swapLaunchOffload⟩,
        ⟨postComputeAnchor order (computeBetween.headD 0), 10, swapStep key .swapWaitOffload⟩]
      let before := [⟨loadLaunchAnchor order fwdLeaf bwdLeaf computeBetween, 20,
          swapStep key .swapLaunchLoad⟩,
        ⟨bwdLeaf.containerIndex, 10, swapStep key .swapWaitLoad⟩]
      some (before, after)

/-- The actions of an entry of the forward dict. -/
def entryActions (order : Order) (containers : List ℕ)
    (bwdIndex : List (Chunk × ComputeLeaf)) (entry : Chunk × ComputeLeaf) :
    List Action × List Action :=
  ((bwdIndex.lookup entry.1).bind fun bwdLeaf =>
    chunkSwapActions order containers entry.2 bwdLeaf).getD ([], [])

/-- `_collect_swap_actions`: the actions before and after the steps, in the order in which they are
added. -/
def collectSwapActions (order : Order) : List Action × List Action :=
  let (leaves, containers) := collectComputeLeaves order
  let fwdIndex := indexComputeLeaves isForward leaves
  let bwdIndex := indexComputeLeaves isConsumer leaves
  let actions := fwdIndex.map (entryActions order containers bwdIndex)
  (actions.flatMap Prod.fst, actions.flatMap Prod.snd)

/-- The order of the actions at an index, from high priority to low. -/
def Action.le (a b : Action) : Prop := b.priority ≤ a.priority

instance : DecidableRel Action.le := fun a b =>
  inferInstanceAs (Decidable (b.priority ≤ a.priority))

instance : Std.Total Action.le := ⟨fun a b => Nat.le_total b.priority a.priority⟩

instance : IsTrans Action Action.le := ⟨fun _ _ _ hab hbc => Nat.le_trans hbc hab⟩

/-- `_iter_steps_by_priority` of the actions at an index -/
def stepsByPriority (actions : List Action) (index : ℕ) : List AnyMetaStep :=
  ((actions.filter fun action => action.anchor = index).insertionSort Action.le).map Action.step

/-- `inject_pipeline_swap_steps` -/
def injectPipelineSwapSteps (order : Order) : Order :=
  let (beforeSteps, afterSteps) := collectSwapActions order
  order.zipIdx.flatMap fun entry =>
    (stepsByPriority beforeSteps entry.2).map some ++ [entry.1] ++
      (stepsByPriority afterSteps entry.2).map some

end HyperParallel.PipelineSwap

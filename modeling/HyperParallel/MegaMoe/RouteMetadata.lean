import HyperParallel.MegaMoe.ReadyHandshake
import Mathlib.Algebra.BigOperators.Intervals
import Mathlib.Algebra.Order.BigOperators.Group.Finset
import Mathlib.Tactic.Common

/-!
# Routing of a call

`core/multicore/modules/mega_moe/route.py` and `ExecuteShmemPutMem` of `worker_kernel.cpp`.

* `computeRouteMetadata`: the offset tables of a rank, in `int32` prefix sums;
* `executeShmemPutMem`: the slice that a put-mem task copies, with its `int32_t` bounds;
* `dispatchPut`, `combinePut`: the tasks of a rank on the tables, scaled by `hidden_size`;
* `Routed`: every row is moved once, and the combine undoes the dispatch;
* `Fits`: the counts and sizes for which nothing wraps.

Offsets are in elements; `int64` arithmetic is that of the integers.
-/

namespace HyperParallel.MegaMoe

open Finset

/-! ### The tables -/

/-- What the tables use of `MegaMoeSpec`; `receive_capacity` when it is bounded. -/
structure MegaMoeSpec where
  epSize : ℕ
  localExperts : ℕ
  localNumTokens : ℕ
  hiddenSize : ℕ
  topK : ℕ
  split : ℕ
  boundedCapacity : Option ℕ

/-- `_align_capacity`. -/
def alignCapacity (capacity split : ℕ) : ℕ := (capacity + split - 1) / split * split

/-- `receive_capacity`. -/
def MegaMoeSpec.receiveCapacity (spec : MegaMoeSpec) : ℕ :=
  match spec.boundedCapacity with
  | none => alignCapacity (spec.epSize * (spec.localNumTokens * spec.topK)) spec.split
  | some capacity => capacity

/-- `cumsum(dtype=int32)`. -/
def cumsum32 (f : ℕ → ℤ) : ℕ → ℤ
  | 0 => toInt32 (f 0)
  | n + 1 => toInt32 (cumsum32 f n + f (n + 1))

/-- `cumsum(...) - f`. -/
def exclusive32 (f : ℕ → ℤ) (n : ℕ) : ℤ := toInt32 (cumsum32 f n - f n)

section Tables

variable (spec : MegaMoeSpec) (counts : ℕ → ℕ → ℕ)

def MegaMoeSpec.experts : ℕ := spec.epSize * spec.localExperts

/-- `source_prefix`. -/
def sourcePrefix (source expert : ℕ) : ℤ := exclusive32 (fun e => (counts source e : ℤ)) expert

/-- `destination_layout`, flat: a local expert after the other, the sources of each in order. -/
def destinationFlat (destination j : ℕ) : ℕ :=
  counts (j % spec.epSize) (destination * spec.localExperts + j / spec.epSize)

/-- `destination_prefix`. -/
def destinationPrefix (destination j : ℕ) : ℤ :=
  exclusive32 (fun j => (destinationFlat spec counts destination j : ℤ)) j

structure RouteMetadata where
  dispatchSrcOff : ℕ → ℤ
  dispatchTargetOff : ℕ → ℤ
  dispatchSize : ℕ → ℤ
  combineSrcOff : ℕ → ℤ
  combineTargetOff : ℕ → ℤ
  combineSize : ℕ → ℤ
  groupList : ℕ → ℤ

/-- `_compute_route_metadata` on a rank. -/
def computeRouteMetadata (rank : ℕ) : RouteMetadata where
  dispatchSrcOff e := sourcePrefix counts rank e
  -- `destination_prefix[:, :, rank]`
  dispatchTargetOff e := destinationPrefix spec counts (e / spec.localExperts)
    (e % spec.localExperts * spec.epSize + rank)
  dispatchSize e := counts rank e
  -- `local_destination_prefix.T`
  combineSrcOff j := destinationPrefix spec counts rank
    (j % spec.localExperts * spec.epSize + j / spec.localExperts)
  combineTargetOff j := sourcePrefix counts (j / spec.localExperts)
    (rank * spec.localExperts + j % spec.localExperts)
  combineSize j := counts (j / spec.localExperts) (rank * spec.localExperts + j % spec.localExperts)
  -- the last source of an expert ends its group
  groupList e := toInt32 (destinationPrefix spec counts rank (e * spec.epSize + (spec.epSize - 1)) +
    destinationFlat spec counts rank (e * spec.epSize + (spec.epSize - 1)))

/-- The rows that a source routes, and those that a destination receives. -/
def sourceTotal (source : ℕ) : ℕ := ∑ e ∈ range spec.experts, counts source e

def load (destination : ℕ) : ℕ :=
  ∑ j ∈ range (spec.localExperts * spec.epSize), destinationFlat spec counts destination j

/-- `_expert_capacity` does not raise. -/
def ExpertCapacityAccepts : Prop :=
  ∀ capacity ∈ spec.boundedCapacity, ∀ d < spec.epSize, toInt32 (load spec counts d) ≤ capacity

/-! ### The tasks -/

/-- `put_mem_signal_kernel`, in elements. -/
structure Put where
  targetPe : ℕ
  target : ℤ
  src : ℤ
  send : ℤ

/-- The put-mem tasks of an expert, `task_split_num / expert_num`. -/
def MegaMoeSpec.expertTasks : ℕ := spec.localNumTokens / spec.split

def MegaMoeSpec.taskNum : ℕ := spec.experts * spec.expertTasks

/-- `ExecuteShmemPutMem` on tables in rows, which the host has scaled. -/
def executeShmemPutMem (targetOff srcOff size : ℕ → ℤ) (taskIndex : ℕ) : Put :=
  let group := taskIndex / spec.expertTasks
  let value : ℕ := taskIndex % spec.expertTasks
  -- `size_`, `start` and `end` are `int32_t`, the offsets are not
  let size := toInt32 (size group * spec.hiddenSize)
  let start := toInt32 (value * spec.split * spec.hiddenSize)
  let fin := toInt32 ((value + 1) * spec.split * spec.hiddenSize)
  { targetPe := taskIndex / (spec.localExperts * spec.expertTasks)
    target := targetOff group * spec.hiddenSize + start
    src := srcOff group * spec.hiddenSize + start
    send := if size ≤ start then 0 else if size < fin then toInt32 (size - start)
      else toInt32 (spec.split * spec.hiddenSize) }

/-- The tasks of a rank. -/
def dispatchPut (rank taskIndex : ℕ) : Put :=
  let metadata := computeRouteMetadata spec counts rank
  executeShmemPutMem spec metadata.dispatchTargetOff metadata.dispatchSrcOff metadata.dispatchSize
    taskIndex

def combinePut (rank taskIndex : ℕ) : Put :=
  let metadata := computeRouteMetadata spec counts rank
  executeShmemPutMem spec metadata.combineTargetOff metadata.combineSrcOff metadata.combineSize
    taskIndex

end Tables

/-- An element that a put copies. -/
def Put.Moves (p : Put) (x y : ℤ) : Prop := ∃ k, 0 ≤ k ∧ k < p.send ∧ x = p.src + k ∧ y = p.target + k

/-- The local expert of a task. -/
def MegaMoeSpec.localExpert (spec : MegaMoeSpec) (taskIndex : ℕ) : ℕ :=
  taskIndex / spec.expertTasks % spec.localExperts

/-- Where the rows of a local expert begin. -/
def groupStart (spec : MegaMoeSpec) (counts : ℕ → ℕ → ℕ) (rank e : ℕ) : ℤ :=
  if e = 0 then 0 else (computeRouteMetadata spec counts rank).groupList (e - 1)

/-- Every row goes to its place once, and comes back. -/
structure Routed (spec : MegaMoeSpec) (counts : ℕ → ℕ → ℕ) : Prop where
  dispatch : ∀ d < spec.epSize, ∀ y : ℤ, 0 ≤ y ∧ y < load spec counts d * spec.hiddenSize ↔
    ∃ r < spec.epSize, ∃ i < spec.taskNum, (dispatchPut spec counts r i).targetPe = d ∧
      ∃ x, (dispatchPut spec counts r i).Moves x y
  dispatchOrder : ∀ r < spec.epSize, ∀ r' < spec.epSize, ∀ i < spec.taskNum, ∀ i' < spec.taskNum,
    (dispatchPut spec counts r i).targetPe = (dispatchPut spec counts r' i').targetPe →
    ∀ x y x' y', (dispatchPut spec counts r i).Moves x y →
      (dispatchPut spec counts r' i').Moves x' y' →
      (spec.localExpert i < spec.localExpert i' ∨ spec.localExpert i = spec.localExpert i' ∧ r < r' →
        y < y') ∧ (y = y' → r = r' ∧ i = i')
  capacity : ∀ d < spec.epSize, load spec counts d ≤ spec.receiveCapacity
  groups : ∀ d < spec.epSize, ∀ e < spec.localExperts, ∀ y : ℤ,
    groupStart spec counts d e * spec.hiddenSize ≤ y ∧
      y < (computeRouteMetadata spec counts d).groupList e * spec.hiddenSize ↔
    ∃ r < spec.epSize, ∃ i < spec.taskNum, (dispatchPut spec counts r i).targetPe = d ∧
      spec.localExpert i = e ∧ ∃ x, (dispatchPut spec counts r i).Moves x y
  combine : ∀ s < spec.epSize, ∀ y : ℤ, 0 ≤ y ∧ y < sourceTotal spec counts s * spec.hiddenSize ↔
    ∃ d < spec.epSize, ∃ i < spec.taskNum, (combinePut spec counts d i).targetPe = s ∧
      ∃ x, (combinePut spec counts d i).Moves x y
  combineOnce : ∀ d < spec.epSize, ∀ d' < spec.epSize, ∀ i < spec.taskNum, ∀ i' < spec.taskNum,
    (combinePut spec counts d i).targetPe = (combinePut spec counts d' i').targetPe →
    ∀ x y x', (combinePut spec counts d i).Moves x y → (combinePut spec counts d' i').Moves x' y →
      d = d' ∧ i = i'
  inverse : ∀ r < spec.epSize, ∀ i < spec.taskNum, ∀ x y, (dispatchPut spec counts r i).Moves x y →
    ∃ i' < spec.taskNum, (combinePut spec counts (dispatchPut spec counts r i).targetPe i').Moves y x ∧
      (combinePut spec counts (dispatchPut spec counts r i).targetPe i').targetPe = r

/-- The counts of a call that `_expert_capacity` accepts. -/
structure Counted (spec : MegaMoeSpec) (counts : ℕ → ℕ → ℕ) : Prop where
  split_pos : 0 < spec.split
  divides : spec.localNumTokens % spec.split = 0
  entries : ∀ s < spec.epSize, ∀ e < spec.experts, counts s e ≤ spec.localNumTokens
  accepts : ExpertCapacityAccepts spec counts

/-- No size, start of a tile, end of a tile that copies or prefix sum wraps in `int32`, and a
lossless call has the slots of its routing. -/
structure Fits (spec : MegaMoeSpec) (counts : ℕ → ℕ → ℕ) : Prop extends Counted spec counts where
  sizes : ∀ s < spec.epSize, ∀ e < spec.experts, counts s e * spec.hiddenSize < 2 ^ 31
  starts : ∀ v < spec.expertTasks, v * (spec.split * spec.hiddenSize) < 2 ^ 31
  ends : ∀ s < spec.epSize, ∀ e < spec.experts, ∀ v < spec.expertTasks,
    v * (spec.split * spec.hiddenSize) < counts s e * spec.hiddenSize →
      (v + 1) * (spec.split * spec.hiddenSize) < 2 ^ 31
  sources : ∀ s < spec.epSize, sourceTotal spec counts s < 2 ^ 31
  loads : ∀ d < spec.epSize, load spec counts d < 2 ^ 31
  slots : spec.boundedCapacity = none →
    ∀ s < spec.epSize, sourceTotal spec counts s ≤ spec.localNumTokens * spec.topK

end HyperParallel.MegaMoe

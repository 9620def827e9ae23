import HyperParallel.Lib.WordImage
import HyperParallel.MegaMoe.ReadyHandshake
import Mathlib.Tactic.Common

/-!
# The runtime image

`core/multicore/scheduler/runtime.py`, which writes the runtime configuration of
`scheduler/config.py`, and `ops/runtime/runtime_config.hpp`, which reads it on the device.

* `RuntimeConfig`: the host structure; `RuntimeConfig.Allocated`: the sizes of its arrays;
* `serializeRuntimeConfig`: the image; its sections have no padding between them, which
  `allocate_runtime_config` checks;
* `getTaskDesc` and the other functions of the device, with their offsets in `uint32_t`;
* `isRuntimeStorageValid`: the checks of the device before it reads the arrays.

Signed fields of 32 and 64 bits are stored as their words.
-/

namespace HyperParallel.MegaMoe

open WordImage

/-! ### The host -/

/-- `TensorDescC`. -/
structure TensorDesc where
  tensorType : UInt32
  numDims : UInt32
  dim : List UInt32
  stride : List UInt32
  dataType : UInt32
  inputPosition : UInt32
  basePtrOffset : UInt32
  transposeFlag : UInt32
  dynamicShape : UInt32
  dynamicDim : UInt32
  deriving DecidableEq

/-- `TaskDescC`. -/
structure TaskDesc where
  taskType : UInt32
  taskAicoreType : UInt32
  numInputs : UInt32
  numOutputs : UInt32
  triggerEvent : UInt32
  dependentEvent : UInt32
  inputs : List TensorDesc
  outputs : List TensorDesc
  tilingDataPosition : UInt32
  tilingDataOffset : UInt32
  taskIndex : UInt32
  taskSplitNum : UInt32
  taskSplitValue : UInt32
  extraValue0 : UInt32
  extraValue1 : UInt32
  extraValue2 : UInt32
  profileDescId : UInt32
  profileOwnerId : UInt32
  deriving DecidableEq

/-- `EventDescC`. -/
structure EventDesc where
  eventType : UInt32
  numTriggers : UInt32
  firstTaskId : UInt32
  lastTaskId : UInt32
  deriving DecidableEq

/-- `DynamicDataC`. -/
structure DynamicData where
  dynamicType : UInt32
  dynamicInputPosition : UInt32
  dynamicGroupSize : UInt32
  dynamicMaxSeqLen : Int32
  deriving DecidableEq

/-- `RuntimeConfigC` with the arrays that `_runtime_config_type` appends. -/
structure RuntimeConfig where
  taskNum : UInt32
  numWorkers : UInt32
  readyEvent : UInt32
  cycleProfilingEnabled : UInt32
  aicProfileRecordCapacity : UInt32
  aivProfileRecordCapacity : UInt32
  allEventNumTriggers : List Int32
  allTasks : List TaskDesc
  allEvents : List EventDesc
  taskIndexNum : List Int32
  cubeTaskIndices : List Int32
  vectorTaskIndices : List Int32
  mixTaskIndices : List Int32
  dynamicData : DynamicData
  groupedMatmulGroupList : List Int64
  atomicAddValues : List Int32

def maxTensorDims : ℕ := 4
def maxInputsPerTask : ℕ := 4
def maxOutputsPerTask : ℕ := 4
def minEventCapacity : ℕ := 1024
def maxGroupList : ℕ := 512
def atomicAddValueLen : ℕ := 8

/-- `TASK_DESC_SIZE` and `RUNTIME_FIXED_BYTES`. -/
def taskDescSize : ℕ := 576
def runtimeFixedBytes : ℕ := 64 + 16 + 16 + maxGroupList * 8 + atomicAddValueLen * 4

/-- The arrays of a descriptor have their fixed lengths. -/
def TensorDesc.Sized (t : TensorDesc) : Prop :=
  t.dim.length = maxTensorDims ∧ t.stride.length = maxTensorDims

def TaskDesc.Sized (t : TaskDesc) : Prop :=
  t.inputs.length = maxInputsPerTask ∧ t.outputs.length = maxOutputsPerTask ∧
    (∀ x ∈ t.inputs, x.Sized) ∧ ∀ x ∈ t.outputs, x.Sized

/-- `(n + 15) // 16 * 16`. -/
def aligned16 (n : ℕ) : ℕ := (n + 15) / 16 * 16

/-- `runtime_config_serialized_size`, `none` where it raises. -/
def runtimeConfigSerializedSize (taskCapacity eventCapacity : ℕ) : Option ℕ :=
  if taskCapacity % 16 ≠ 0 then none
  else if eventCapacity < minEventCapacity ∨ eventCapacity % 16 ≠ 0 then none
  else
    let size := runtimeFixedBytes + eventCapacity * 20 + taskCapacity * (taskDescSize + 12)
    if 2 ^ 32 ≤ size then none else some size

/-- What `allocate_runtime_config` returns, filled in any way. -/
structure RuntimeConfig.Allocated (taskCapacity eventCapacity : ℕ) (cfg : RuntimeConfig) :
    Prop where
  accepted : runtimeConfigSerializedSize (aligned16 taskCapacity) eventCapacity ≠ none
  triggers : cfg.allEventNumTriggers.length = eventCapacity
  tasks : cfg.allTasks.length = aligned16 taskCapacity
  tasksSized : ∀ x ∈ cfg.allTasks, x.Sized
  events : cfg.allEvents.length = eventCapacity
  counts : cfg.taskIndexNum.length = 4
  cube : cfg.cubeTaskIndices.length = aligned16 taskCapacity
  vector : cfg.vectorTaskIndices.length = aligned16 taskCapacity
  mix : cfg.mixTaskIndices.length = aligned16 taskCapacity
  groupList : cfg.groupedMatmulGroupList.length = maxGroupList
  atomic : cfg.atomicAddValues.length = atomicAddValueLen

/-- The three queues with their counts. -/
def RuntimeConfig.queues (cfg : RuntimeConfig) : List (List Int32 × Int32) :=
  [cfg.cubeTaskIndices, cfg.vectorTaskIndices, cfg.mixTaskIndices].zip (cfg.taskIndexNum.take 3)

/-- One turn of the loop over the queues in `runtime_config_task_capacity`. -/
def requireQueue (taskCount required : ℕ) (queue : List Int32 × Int32) : Option ℕ :=
  if queue.2.toInt < 0 ∨ (queue.1.length : ℤ) < queue.2.toInt then none
  else
    (queue.1.take queue.2.toInt.toNat).foldlM (fun required taskId =>
      if taskId.toInt < 0 ∨ (taskCount : ℤ) ≤ taskId.toInt then none
      else some (max required (taskId.toInt.toNat + 1))) (max required queue.2.toInt.toNat)

/-- `runtime_config_task_capacity`. -/
def runtimeConfigTaskCapacity (cfg : RuntimeConfig) : Option ℕ := do
  let required ← cfg.queues.foldlM (requireQueue cfg.allTasks.length) cfg.taskNum.toNat
  let capacity := aligned16 required
  if min cfg.allTasks.length (min cfg.cubeTaskIndices.length (min cfg.vectorTaskIndices.length
    cfg.mixTaskIndices.length)) < capacity then none
  else some capacity

/-- The words of the structures. -/
def TensorDesc.words (t : TensorDesc) : List UInt32 :=
  [t.tensorType, t.numDims] ++ t.dim ++ t.stride ++
    [t.dataType, t.inputPosition, t.basePtrOffset, t.transposeFlag, t.dynamicShape, t.dynamicDim]

def TaskDesc.words (t : TaskDesc) : List UInt32 :=
  [t.taskType, t.taskAicoreType, t.numInputs, t.numOutputs, t.triggerEvent, t.dependentEvent] ++
    t.inputs.flatMap TensorDesc.words ++ t.outputs.flatMap TensorDesc.words ++
    [t.tilingDataPosition, t.tilingDataOffset, t.taskIndex, t.taskSplitNum, t.taskSplitValue,
      t.extraValue0, t.extraValue1, t.extraValue2, t.profileDescId, t.profileOwnerId]

def EventDesc.words (e : EventDesc) : List UInt32 :=
  [e.eventType, e.numTriggers, e.firstTaskId, e.lastTaskId]

def DynamicData.words (d : DynamicData) : List UInt32 :=
  [d.dynamicType, d.dynamicInputPosition, d.dynamicGroupSize, d.dynamicMaxSeqLen.toUInt32]

/-- The low and the high word of an `int64_t`. -/
def int64Words (x : Int64) : List UInt32 :=
  [x.toUInt64.toUInt32, (x.toUInt64 >>> 32).toUInt32]

/-- `struct.pack("<8I32x", ...)`. -/
def headerWords (cfg : RuntimeConfig) (capacity eventCapacity : ℕ) : List UInt32 :=
  [cfg.taskNum, cfg.numWorkers, UInt32.ofNat capacity, UInt32.ofNat eventCapacity, cfg.readyEvent,
    cfg.cycleProfilingEnabled, cfg.aicProfileRecordCapacity, cfg.aivProfileRecordCapacity] ++
    List.replicate 8 0

/-- The sections of the image. -/
def imageWords (cfg : RuntimeConfig) (capacity : ℕ) : List UInt32 :=
  headerWords cfg capacity cfg.allEventNumTriggers.length ++
    cfg.allEventNumTriggers.map Int32.toUInt32 ++
    (cfg.allTasks.take capacity).flatMap TaskDesc.words ++
    cfg.allEvents.flatMap EventDesc.words ++
    cfg.taskIndexNum.map Int32.toUInt32 ++
    (cfg.cubeTaskIndices.take capacity).map Int32.toUInt32 ++
    (cfg.vectorTaskIndices.take capacity).map Int32.toUInt32 ++
    (cfg.mixTaskIndices.take capacity).map Int32.toUInt32 ++
    cfg.dynamicData.words ++
    cfg.groupedMatmulGroupList.flatMap int64Words ++
    cfg.atomicAddValues.map Int32.toUInt32

/-- `serialize_runtime_config`, `none` where it raises. -/
def serializeRuntimeConfig (cfg : RuntimeConfig) : Option (List UInt8) := do
  let capacity ← runtimeConfigTaskCapacity cfg
  if cfg.allEvents.length ≠ cfg.allEventNumTriggers.length then none
  else
    let expected ← runtimeConfigSerializedSize capacity cfg.allEventNumTriggers.length
    let data := encode (imageWords cfg capacity)
    if data.length ≠ expected then none else some data

/-! ### The device -/

section Device

variable (image : List UInt8)

def getTaskNum : Option UInt32 := read image 0
def getNumWorkers : Option UInt32 := read image 4
def getRuntimeTaskCapacity : Option UInt32 := read image (2 * 4)
def getRuntimeEventCapacity : Option UInt32 := read image (3 * 4)
def getReadyHandshakeMeta : Option UInt32 := read image (4 * 4)
def isCycleProfileEnabled : Option Bool := (read image (5 * 4)).map (· != 0)
def getAicProfileRecordCapacity : Option UInt32 := read image (6 * 4)
def getAivProfileRecordCapacity : Option UInt32 := read image (7 * 4)

def getAllEventNumTriggersOffset : ℕ := 64

def getAllTasksOffset : Option ℕ := do
  let events ← getRuntimeEventCapacity image
  return uint32 (getAllEventNumTriggersOffset + uint32 (4 * events.toNat))

def getAllEventsOffset : Option ℕ := do
  let startSize ← getAllTasksOffset image
  let capacity ← getRuntimeTaskCapacity image
  return uint32 (startSize + uint32 (taskDescSize * capacity.toNat))

def getTaskIndexNumOffset : Option ℕ := do
  let start ← getAllEventsOffset image
  let events ← getRuntimeEventCapacity image
  return uint32 (start + uint32 (uint32 (events.toNat * 4) * 4))

def getCubeTaskIndexsOffset : Option ℕ := do
  return uint32 ((← getTaskIndexNumOffset image) + 4 * 4)

def getVectorTaskIndexsOffset : Option ℕ := do
  let start ← getCubeTaskIndexsOffset image
  let capacity ← getRuntimeTaskCapacity image
  return uint32 (start + uint32 (capacity.toNat * 4))

def getMixTaskIndexsOffset : Option ℕ := do
  let start ← getVectorTaskIndexsOffset image
  let capacity ← getRuntimeTaskCapacity image
  return uint32 (start + uint32 (capacity.toNat * 4))

def getDynamicDataOffset : Option ℕ := do
  let start ← getMixTaskIndexsOffset image
  let capacity ← getRuntimeTaskCapacity image
  return uint32 (start + uint32 (capacity.toNat * 4))

def getGroupedMatmulGroupListOffset : Option ℕ := do
  return uint32 ((← getDynamicDataOffset image) + 4 * 4)

def getAtomicAddValuesOffset : Option ℕ := do
  return uint32 ((← getGroupedMatmulGroupListOffset image) + maxGroupList * 8)

/-- One tensor of `getTaskDesc`. -/
def readTensorDesc : Reader TensorDesc := do
  let tensorType ← next
  let numDims ← next
  let dim ← many next maxTensorDims
  let stride ← many next maxTensorDims
  let dataType ← next
  let inputPosition ← next
  let basePtrOffset ← next
  let transposeFlag ← next
  let dynamicShape ← next
  let dynamicDim ← next
  return ⟨tensorType, numDims, dim, stride, dataType, inputPosition, basePtrOffset, transposeFlag,
    dynamicShape, dynamicDim⟩

def readTaskDesc : Reader TaskDesc := do
  let taskType ← next
  let taskAicoreType ← next
  let numInputs ← next
  let numOutputs ← next
  let triggerEvent ← next
  let dependentEvent ← next
  let inputs ← many readTensorDesc maxInputsPerTask
  let outputs ← many readTensorDesc maxOutputsPerTask
  let tilingDataPosition ← next
  let tilingDataOffset ← next
  let taskIndex ← next
  let taskSplitNum ← next
  let taskSplitValue ← next
  let extraValue0 ← next
  let extraValue1 ← next
  let extraValue2 ← next
  let profileDescId ← next
  let profileOwnerId ← next
  return ⟨taskType, taskAicoreType, numInputs, numOutputs, triggerEvent, dependentEvent, inputs,
    outputs, tilingDataPosition, tilingDataOffset, taskIndex, taskSplitNum, taskSplitValue,
    extraValue0, extraValue1, extraValue2, profileDescId, profileOwnerId⟩

def readEventDesc : Reader EventDesc := do
  let eventType ← next
  let numTriggers ← next
  let firstTaskId ← next
  let lastTaskId ← next
  return ⟨eventType, numTriggers, firstTaskId, lastTaskId⟩

def readDynamicData : Reader DynamicData := do
  let dynamicType ← next
  let dynamicInputPosition ← next
  let dynamicGroupSize ← next
  let dynamicMaxSeqLen ← next
  return ⟨dynamicType, dynamicInputPosition, dynamicGroupSize, dynamicMaxSeqLen.toInt32⟩

def getTaskDesc (index : ℕ) : Option TaskDesc := do
  let start ← getAllTasksOffset image
  let r ← readTaskDesc image (uint32 (start + uint32 (index * taskDescSize)))
  return r.1

def getTaskProfileDescId (index : ℕ) : Option UInt32 := do
  let start ← getAllTasksOffset image
  read image (uint32 (uint32 (start + uint32 (uint32 (index + 1) * taskDescSize)) + 2 ^ 32 - 8))

def getTaskProfileOwnerId (index : ℕ) : Option UInt32 := do
  let start ← getAllTasksOffset image
  read image (uint32 (uint32 (start + uint32 (uint32 (index + 1) * taskDescSize)) + 2 ^ 32 - 4))

def getEventDesc (index : ℕ) : Option EventDesc := do
  let start ← getAllEventsOffset image
  let r ← readEventDesc image (uint32 (start + uint32 (uint32 (index * 4) * 4)))
  return r.1

def getDynamicData : Option DynamicData := do
  let start ← getDynamicDataOffset image
  let r ← readDynamicData image start
  return r.1

/-- `TaskAiCoreType`, as far as `getTaskIndexNumByTaskType` tells them apart. -/
inductive TaskAiCoreType
  | cube
  | vector
  | mix
  deriving DecidableEq, Repr

def getTaskIndexNumByTaskType (kind : TaskAiCoreType) : Option Int32 := do
  let start ← getAllEventsOffset image
  let events ← getRuntimeEventCapacity image
  let size := uint32 (start + uint32 (uint32 (events.toNat * 4) * 4))
  match kind with
  | .vector => (read image (uint32 (size + 4))).map UInt32.toInt32
  | .cube => (read image size).map UInt32.toInt32
  | .mix => (read image (uint32 (size + 4 * 2))).map UInt32.toInt32

/-- An entry of an array of `int32_t`. -/
def readInt32 (offset index : ℕ) : Option Int32 :=
  (read image (offset + 4 * index)).map UInt32.toInt32

/-- `isReadyHandshakeStorageValid`. -/
def isReadyHandshakeStorageValid (readyEvent : UInt32) (eventBytes events epSize : ℕ) : Bool :=
  readyEvent == 0 || (decide (1 < epSize) &&
    decide (readyEvent.toNat + atomicAddValueLen ≤ events) &&
    decide (events * 4 + (epSize + 1) * readyCacheLineBytes ≤ eventBytes))

/-- `areTaskIndexCountsValid`. -/
def areTaskIndexCountsValid (capacity : ℕ) : Option Bool := do
  let start ← getTaskIndexNumOffset image
  let counts ← (List.range 3).mapM fun index => readInt32 image start index
  return counts.all fun count => decide (0 ≤ count.toInt) && decide (count.toInt ≤ capacity)

/-- `isRuntimeStorageValid`: `none` where it would read outside of the image. -/
def isRuntimeStorageValid (runtimeBytes eventBytes epSize : ℕ) : Option Bool :=
  if runtimeBytes < 64 ∨ 2 ^ 32 ≤ runtimeBytes then some false
  else do
    let capacity := (← getRuntimeTaskCapacity image).toNat
    let events := (← getRuntimeEventCapacity image).toNat
    let taskNum := (← getTaskNum image).toNat
    let readyEvent ← getReadyHandshakeMeta image
    if ¬(capacity % 16 = 0 ∧ minEventCapacity ≤ events ∧ events % 16 = 0 ∧ taskNum ≤ capacity ∧
        events * 4 ≤ eventBytes) ∨
        ¬isReadyHandshakeStorageValid readyEvent eventBytes events epSize then return false
    let required := 64 + events * (4 + 16) + capacity * (taskDescSize + 3 * 4) + 4 * 4 + 16 +
      maxGroupList * 8 + atomicAddValueLen * 4
    if ¬(required < 2 ^ 32 ∧ required ≤ runtimeBytes) then return false
    areTaskIndexCountsValid image capacity

end Device

/-! ### What the image promises -/

/-- A queue of the image holds the entries of the host's. -/
def QueueReads (image : List UInt8) (offset : Option ℕ) (indices : List Int32)
    (capacity : ℕ) : Prop :=
  ∃ start, offset = some start ∧ ∀ i < capacity, ∃ taskId,
    indices[i]? = some taskId ∧ readInt32 image start i = some taskId

/-- The device reads the fields of the host, up to the capacity of the image. -/
structure ReadsBack (cfg : RuntimeConfig) (image : List UInt8) (capacity eventCapacity : ℕ) :
    Prop where
  scalars : getTaskNum image = some cfg.taskNum ∧ getNumWorkers image = some cfg.numWorkers ∧
    getReadyHandshakeMeta image = some cfg.readyEvent ∧
    isCycleProfileEnabled image = some (cfg.cycleProfilingEnabled != 0) ∧
    getAicProfileRecordCapacity image = some cfg.aicProfileRecordCapacity ∧
    getAivProfileRecordCapacity image = some cfg.aivProfileRecordCapacity
  capacity_eq : (getRuntimeTaskCapacity image).map UInt32.toNat = some capacity
  eventCapacity_eq : (getRuntimeEventCapacity image).map UInt32.toNat = some eventCapacity
  /-- no offset wraps -/
  offsets : getAllTasksOffset image = some (64 + 4 * eventCapacity) ∧
    getAllEventsOffset image = some (64 + 4 * eventCapacity + taskDescSize * capacity) ∧
    getAtomicAddValuesOffset image =
      some (4192 + 20 * eventCapacity + (taskDescSize + 12) * capacity)
  descriptors : ∀ i < capacity, ∃ task, cfg.allTasks[i]? = some task ∧
    getTaskDesc image i = some task ∧
    getTaskProfileDescId image i = some task.profileDescId ∧
    getTaskProfileOwnerId image i = some task.profileOwnerId
  triggers : ∀ i < eventCapacity, ∃ trigger, cfg.allEventNumTriggers[i]? = some trigger ∧
    readInt32 image getAllEventNumTriggersOffset i = some trigger
  events : ∀ i < eventCapacity, ∃ event, cfg.allEvents[i]? = some event ∧
    getEventDesc image i = some event
  counts : getTaskIndexNumByTaskType image .cube = cfg.taskIndexNum[0]? ∧
    getTaskIndexNumByTaskType image .vector = cfg.taskIndexNum[1]? ∧
    getTaskIndexNumByTaskType image .mix = cfg.taskIndexNum[2]?
  cube : QueueReads image (getCubeTaskIndexsOffset image) cfg.cubeTaskIndices capacity
  vector : QueueReads image (getVectorTaskIndexsOffset image) cfg.vectorTaskIndices capacity
  mix : QueueReads image (getMixTaskIndexsOffset image) cfg.mixTaskIndices capacity
  dynamicData : getDynamicData image = some cfg.dynamicData
  atomic : QueueReads image (getAtomicAddValuesOffset image) cfg.atomicAddValues atomicAddValueLen
  /-- no queue leads outside of the descriptors -/
  reachable : ∀ queue ∈ cfg.queues, ∀ taskId ∈ queue.1.take queue.2.toInt.toNat,
    0 ≤ taskId.toInt ∧ taskId.toInt < capacity

/-- The ready event is what `configure_ready_handshake` leaves it. -/
def RuntimeConfig.ReadyConfigured (cfg : RuntimeConfig) (eventCapacity ep : ℕ) : Prop :=
  cfg.readyEvent = 0 ∨ 1 < ep ∧ cfg.readyEvent.toNat + atomicAddValueLen ≤ eventCapacity

end HyperParallel.MegaMoe

import Mathlib.Algebra.BigOperators.Group.List.Basic
import Mathlib.Algebra.Ring.Nat
import Mathlib.Tactic.Common

/-!
# Dynamic batches under a token budget

`data/batching/build_dataloader.py`: samples are buffered as they come from the source, and a
batch takes the buffered samples that fit a token budget, oldest first.

* `TextTokenBatcher`: the buffer, its replay keys and its token count;
* `Runtime`: the two checkpoint representations of the buffer;
* `batchDataGenerator`: the three phases of the iterator, with the loader as it stands at every
  yield;
* `stateDict`, `loadStateDict`.

A model sample is of any type `α` with a token length `len`; `κ` is the type of the output indices.
The source dataloader is the list of its batches together with a cursor.
-/

namespace HyperParallel.Data

universe u

/-- What the dynamic loader raises. -/
inductive DynamicBatchError
  /-- `token_budget must be positive` -/
  | tokenBudget
  /-- `min_buffered_samples must be positive` -/
  | minBufferedSamples
  /-- `Dynamic batching samples must contain at least one token` -/
  | emptySample
  /-- `Dynamic token buffer is empty` -/
  | emptyBuffer
  /-- `Dynamic sample and output-index buffers are inconsistent` -/
  | inconsistentBuffers
  /-- `Index-buffer checkpoint requires a replay key for every buffered sample` -/
  | missingReplayKey
  /-- `save_by_idx=True cannot restore a checkpoint containing full samples` -/
  | fullSamples
  /-- `An index-buffer checkpoint requires a replayable Dataset` -/
  | notReplayable
  /-- `Buffered sample_idx={resolved_sample_idx} is out of range for output_index={output_index!r}` -/
  | sampleIdxRange
  /-- `Online dataloader resume does not support DP world-size changes` -/
  | dpWorldSizeChanged
  /-- `buffer_token_count does not match the restored dynamic buffer` -/
  | tokenCountMismatch
  deriving DecidableEq, Repr

/-- `TextTokenBatcher`. -/
structure TextTokenBatcher (α κ : Type u) where
  tokenBudget : ℕ
  minBufferedSamples : ℕ
  buffer : List (α × ℕ) := []
  bufferOutputIndices : List (Option (κ × ℕ)) := []
  bufferTokenCount : ℕ := 0
  deriving DecidableEq

/-- A source item: one model sample, or a sequence of them. -/
inductive SourceItem (α : Type u)
  | mapping (modelSample : α)
  | sequence (modelSamples : List α)
  deriving DecidableEq

/-- `_normalize_source_samples`. -/
def SourceItem.normalize {α : Type u} : SourceItem α → List α
  | .mapping modelSample => [modelSample]
  | .sequence modelSamples => modelSamples

variable {α κ : Type u}

namespace TextTokenBatcher

/-- `__post_init__`. -/
def init (tokenBudget minBufferedSamples : ℕ) :
    Except DynamicBatchError (TextTokenBatcher α κ) :=
  if tokenBudget = 0 then .error .tokenBudget
  else if minBufferedSamples = 0 then .error .minBufferedSamples
  else .ok { tokenBudget, minBufferedSamples }

variable (len : α → ℕ) (b : TextTokenBatcher α κ)

/-- `put_item`. -/
def putItem (modelSample : α) (outputIndexEntry : Option (κ × ℕ)) :
    Except DynamicBatchError (TextTokenBatcher α κ) :=
  if len modelSample = 0 then .error .emptySample
  else .ok { b with
    buffer := b.buffer ++ [(modelSample, len modelSample)]
    bufferOutputIndices := b.bufferOutputIndices ++ [outputIndexEntry]
    bufferTokenCount := b.bufferTokenCount + len modelSample }

/-- `is_ready_for_micro_batch`. -/
def isReadyForMicroBatch : Bool :=
  decide (b.minBufferedSamples ≤ b.buffer.length) && decide (b.tokenBudget ≤ b.bufferTokenCount)

/-- `empty`. -/
def empty : Bool := b.buffer.isEmpty

/-- The local variables of the loop of `get_micro_batch`. -/
structure Selection (α κ : Type u) where
  selectedSamples : List α := []
  remainingBuffer : List (α × ℕ) := []
  remainingBufferOutputIndices : List (Option (κ × ℕ)) := []
  selectedTokenCount : ℕ := 0

/-- One round of the loop of `get_micro_batch`. -/
def selectStep (tokenBudget : ℕ) (s : Selection α κ) (x : (α × ℕ) × Option (κ × ℕ)) :
    Selection α κ :=
  if s.selectedTokenCount = 0 ∨ s.selectedTokenCount + x.1.2 ≤ tokenBudget then
    { s with
      selectedSamples := s.selectedSamples ++ [x.1.1]
      selectedTokenCount := s.selectedTokenCount + x.1.2 }
  else
    { s with
      remainingBuffer := s.remainingBuffer ++ [x.1]
      remainingBufferOutputIndices := s.remainingBufferOutputIndices ++ [x.2] }

/-- `get_micro_batch`. -/
def getMicroBatch : Except DynamicBatchError (List α × TextTokenBatcher α κ) :=
  if b.buffer = [] then .error .emptyBuffer
  else
    let s := (b.buffer.zip b.bufferOutputIndices).foldl (selectStep b.tokenBudget) {}
    .ok (s.selectedSamples, { b with
      buffer := s.remainingBuffer
      bufferOutputIndices := s.remainingBufferOutputIndices
      bufferTokenCount := b.bufferTokenCount - s.selectedTokenCount })

end TextTokenBatcher

/-! ### The two checkpoint representations -/

/-- `_IndexBufferDynamicBatchRuntime` and `_FullBufferDynamicBatchRuntime`; `getItem` is
`get_item` of the dataset an index is replayed from. -/
inductive Runtime (α κ : Type u)
  | index (getItem : κ → SourceItem α)
  | full (replayDataset : Option (κ → SourceItem α))

/-- The `buffer` of a checkpoint. -/
inductive SavedBuffer (α κ : Type u)
  | byIdx (entries : List (κ × ℕ))
  | full (buffer : List (α × ℕ))
  deriving DecidableEq

namespace Runtime

/-- The entries `put_source_item` puts, each with its replay key.  The index a full-buffer source
item would carry is not looked at. -/
def sourceEntries : Runtime α κ → SourceItem α × κ → List (α × Option (κ × ℕ))
  | .index _, x => x.1.normalize.zipIdx.map fun s => (s.1, some (x.2, s.2))
  | .full _, x => x.1.normalize.map fun s => (s, none)

/-- `put_source_item`. -/
def putSourceItem (len : α → ℕ) (runtime : Runtime α κ) (b : TextTokenBatcher α κ)
    (x : SourceItem α × κ) : Except DynamicBatchError (TextTokenBatcher α κ) :=
  (runtime.sourceEntries x).foldlM (fun b s => b.putItem len s.1 s.2) b

/-- `get_buffer_state`. -/
def getBufferState (runtime : Runtime α κ) (b : TextTokenBatcher α κ) :
    Except DynamicBatchError (SavedBuffer α κ) :=
  if b.buffer.length ≠ b.bufferOutputIndices.length then .error .inconsistentBuffers
  else
    match runtime with
    | .index _ =>
        match b.bufferOutputIndices.mapM id with
        | none => .error .missingReplayKey
        | some entries => .ok (.byIdx entries)
    | .full _ => .ok (.full b.buffer)

/-- The samples at an output index: the cached ones, when they are of the same index. -/
def samplesAt [DecidableEq κ] (getItem : κ → SourceItem α) : Option (κ × List α) → κ → List α
  | some (cachedOutputIndex, cachedModelSamples), outputIndex =>
      if outputIndex = cachedOutputIndex then cachedModelSamples
      else (getItem outputIndex).normalize
  | none, outputIndex => (getItem outputIndex).normalize

/-- The loop of `_restore_index_buffer`, with the item it has cached. -/
def restoreIndexBuffer [DecidableEq κ] (len : α → ℕ) (getItem : κ → SourceItem α) :
    Option (κ × List α) → List (κ × ℕ) → Except DynamicBatchError (List (α × ℕ))
  | _, [] => .ok []
  | cached, (outputIndex, sampleIdx) :: saved =>
      let modelSamples := samplesAt getItem cached outputIndex
      match modelSamples[sampleIdx]? with
      | none => .error .sampleIdxRange
      | some modelSample =>
          if len modelSample = 0 then .error .emptySample
          else do
            let restored ← restoreIndexBuffer len getItem (some (outputIndex, modelSamples)) saved
            return (modelSample, len modelSample) :: restored

/-- `restore_buffer`. -/
def restoreBuffer [DecidableEq κ] (len : α → ℕ) :
    Runtime α κ → SavedBuffer α κ →
      Except DynamicBatchError (List (α × ℕ) × List (Option (κ × ℕ)))
  | .index _, .full buffer => if buffer = [] then .ok ([], []) else .error .fullSamples
  | .index getItem, .byIdx entries => do
      let restored ← restoreIndexBuffer len getItem none entries
      return (restored, entries.map some)
  | .full none, .byIdx entries => if entries = [] then .ok ([], []) else .error .notReplayable
  | .full (some getItem), .byIdx entries => do
      let restored ← restoreIndexBuffer len getItem none entries
      return (restored, List.replicate restored.length none)
  | .full _, .full buffer => .ok (buffer, List.replicate buffer.length none)

end Runtime

/-! ### The loader -/

/-- `DynamicBatchDataLoader`; `cursor` is the number of batches the source dataloader has
delivered. -/
structure DynamicBatchDataLoader (α κ : Type u) where
  dpWorldSize : ℕ
  runtime : Runtime α κ
  batcher : TextTokenBatcher α κ
  source : List (List (SourceItem α × κ))
  cursor : ℕ := 0
  resumePending : Bool := false

/-- `state_dict()`. -/
structure DynamicBatchState (α κ : Type u) where
  dpWorldSize : ℕ
  sourceDataloader : ℕ
  buffer : SavedBuffer α κ
  bufferTokenCount : ℕ

/-- What a generator has yielded, and how it went on from there. -/
abbrev Generated (γ β : Type u) := List γ × Except DynamicBatchError β

/-- Run the rest of a generator. -/
def Generated.andThen {γ β δ : Type u} (g : Generated γ β) (f : β → Generated γ δ) :
    Generated γ δ :=
  match g.2 with
  | .error e => (g.1, .error e)
  | .ok b => (g.1 ++ (f b).1, (f b).2)

/-- A yielded batch, with the batcher and the source cursor at that point. -/
structure Yielded (α κ : Type u) where
  modelSamples : List α
  batcher : TextTokenBatcher α κ
  cursor : ℕ

/-- `while cond: yield get_micro_batch()`.  A batch takes at least one sample, so the length of
the buffer bounds the rounds. -/
def yieldWhile (cond : TextTokenBatcher α κ → Bool) (cursor : ℕ) :
    ℕ → TextTokenBatcher α κ → Generated (Yielded α κ) (TextTokenBatcher α κ)
  | 0, b => ([], .ok b)
  | rounds + 1, b =>
      if cond b then
        match b.getMicroBatch with
        | .error e => ([], .error e)
        | .ok (modelSamples, b') =>
            let g := yieldWhile cond cursor rounds b'
            (⟨modelSamples, b', cursor⟩ :: g.1, g.2)
      else ([], .ok b)

/-- `while is_ready_for_micro_batch(): yield get_micro_batch()`. -/
def yieldReady (cursor : ℕ) (b : TextTokenBatcher α κ) :
    Generated (Yielded α κ) (TextTokenBatcher α κ) :=
  yieldWhile TextTokenBatcher.isReadyForMicroBatch cursor b.buffer.length b

/-- `while not empty(): yield get_micro_batch()`. -/
def yieldTail (cursor : ℕ) (b : TextTokenBatcher α κ) :
    Generated (Yielded α κ) (TextTokenBatcher α κ) :=
  yieldWhile (fun b => !b.empty) cursor b.buffer.length b

/-- `for source_samples in source_iterator`. -/
def fillFromSource (len : α → ℕ) (runtime : Runtime α κ) :
    ℕ → List (List (SourceItem α × κ)) → TextTokenBatcher α κ →
      Generated (Yielded α κ) (TextTokenBatcher α κ)
  | _, [], b => ([], .ok b)
  | cursor, sourceSamples :: source, b =>
      match sourceSamples.foldlM (runtime.putSourceItem len) b with
      | .error e => ([], .error e)
      | .ok b' => (yieldReady (cursor + 1) b').andThen (fillFromSource len runtime (cursor + 1) source)

/-- `_batch_data_generator`. -/
def batchDataGenerator (len : α → ℕ) (runtime : Runtime α κ) (cursor : ℕ)
    (source : List (List (SourceItem α × κ))) (b : TextTokenBatcher α κ) :
    Generated (Yielded α κ) (TextTokenBatcher α κ) :=
  (yieldReady cursor b).andThen fun b =>
    (fillFromSource len runtime cursor source b).andThen (yieldTail (cursor + source.length))

namespace DynamicBatchDataLoader

variable (loader : DynamicBatchDataLoader α κ)

/-- `__iter__`: everything the loader yields from where it stands. -/
def iter (len : α → ℕ) : Generated (Yielded α κ) (TextTokenBatcher α κ) :=
  let batcher :=
    if loader.resumePending then loader.batcher
    else { loader.batcher with buffer := [], bufferOutputIndices := [], bufferTokenCount := 0 }
  batchDataGenerator len loader.runtime loader.cursor (loader.source.drop loader.cursor) batcher

/-- The loader as it stands when a batch has been yielded. -/
def at_ (y : Yielded α κ) : DynamicBatchDataLoader α κ :=
  { loader with batcher := y.batcher, cursor := y.cursor }

/-- `state_dict`. -/
def stateDict : Except DynamicBatchError (DynamicBatchState α κ) := do
  let buffer ← loader.runtime.getBufferState loader.batcher
  return ⟨loader.dpWorldSize, loader.cursor, buffer, loader.batcher.bufferTokenCount⟩

/-- `load_state_dict`. -/
def loadStateDict [DecidableEq κ] (len : α → ℕ) (state : DynamicBatchState α κ) :
    Except DynamicBatchError (DynamicBatchDataLoader α κ) :=
  if state.dpWorldSize ≠ loader.dpWorldSize then .error .dpWorldSizeChanged
  else do
    let restored ← loader.runtime.restoreBuffer len state.buffer
    if (restored.1.map Prod.snd).sum ≠ state.bufferTokenCount then .error .tokenCountMismatch
    else return { loader with
      cursor := state.sourceDataloader
      batcher := { loader.batcher with
        buffer := restored.1
        bufferOutputIndices := restored.2
        bufferTokenCount := (restored.1.map Prod.snd).sum }
      resumePending := true }

end DynamicBatchDataLoader

end HyperParallel.Data

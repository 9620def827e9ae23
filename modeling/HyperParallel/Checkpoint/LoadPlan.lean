import HyperParallel.Checkpoint.ReadItems
import HyperParallel.Lib.MixedRadix
import Mathlib.Data.List.Sort

/-!
# Load plans over all ranks

`StandardLoadPlanner.build_local_plan` and `build_global_plan` of `standard_planner.py`,
`LoadPlan.identity` of `planner.py`, and the part of `api.load` and of
`FileSystemReader.execute_read` that fills the destination chunks.

* `buildLocalPlan`: the reads of one rank;
* `sources`: who reads each shard that several ranks want, decided from the gathered plans;
* `buildGlobalPlan`: the plan of a rank with that decision;
* `ownRead` and `loaded`: a chunk read by its own rank, and a chunk after the broadcast load.
-/

namespace HyperParallel.Checkpoint

/-! ### What is stored and what is wanted -/

/-- A tensor of a checkpoint with its metadata. Its saved chunks may leave holes. -/
structure StoredTensor (α : Type*) extends SavedTensor α where
  properties : TensorProperties
  size : List ℕ
  isChunkOf : ∀ c ∈ chunks, c.chunk.IsChunkOf size

/-- An entry of `state_dict_metadata`. -/
inductive Stored (α : Type*)
  | tensor (t : StoredTensor α)
  | bytes

/-- `state_dict_metadata`, with the data. -/
abbrev StoredState (α : Type*) := String → Option (Stored α)

/-- An entry of the flat state dict of a rank: its global shape, its local chunks
(`create_chunk_list_for_tensor`), whether it lies in host memory, and its dtype. -/
structure Destination where
  fqn : String
  size : List ℕ
  chunks : List ChunkStorageMetadata
  onHost : Bool
  dtype : String
  deriving DecidableEq, Repr

/-- What building a local plan raises. -/
inductive LoadError
  /-- `Missing key in checkpoint state_dict: {fqn}.` -/
  | missingKey (fqn : String)
  /-- `Size mismatch between saved {md.size} and current: {obj_size} for {fqn}` -/
  | sizeMismatch (saved current : List ℕ) (fqn : String)
  | read (error : ReadError)
  deriving DecidableEq, Repr

section Plan

variable {α : Type*} (checkpoint : StoredState α)

/-- The reads of one entry of the state dict. -/
def destinationReads (allowPartialLoad : Bool) (dest : Destination) :
    Except LoadError (List ReadItem) :=
  match checkpoint dest.fqn with
  | none =>
      if "matched_adamw_rms".toList <:+ dest.fqn.toList ∨ "step".toList <:+ dest.fqn.toList then
        .ok []
      else if allowPartialLoad then .ok []
      else .error (.missingKey dest.fqn)
  | some (.tensor t) =>
      if t.size ≠ dest.size then .error (.sizeMismatch t.size dest.size dest.fqn)
      else match createReadItemsForChunkList dest.fqn t.metadataChunks dest.chunks (!dest.onHost) with
        | .ok items => .ok items
        | .error e => .error (.read e)
  | some .bytes => .ok [{
      type := .byteIo
      destIndex := ⟨dest.fqn, [], none⟩
      destOffsets := [0]
      storageIndex := ⟨dest.fqn, [], none⟩
      storageOffsets := [0]
      lengths := [0] }]

/-- `build_local_plan`. -/
def buildLocalPlan (allowPartialLoad : Bool) (destinations : List Destination) :
    Except LoadError (List ReadItem) := do
  let reads ← destinations.mapM (destinationReads checkpoint allowPartialLoad)
  return reads.flatten

end Plan

/-- A read without its place in the checkpoint. -/
def ReadItem.identity (item : ReadItem) : ReadItem :=
  { item with destOffsets := [], storageIndex := ⟨"", [], none⟩, storageOffsets := [] }

/-- `LoadPlan.identity`. -/
def identity (plan : List ReadItem) : List ReadItem := plan.map ReadItem.identity

/-! ### Who reads a shard -/

/-- What names a shard: what Python compares of its `dest_index`. -/
abbrev ShardKey := String × List ℕ

section Global

variable (elementSize : String → ℕ) (plans : List (List ReadItem))

/-- The read is a tensor read of the shard. -/
def ReadItem.Names (item : ReadItem) (key : ShardKey) : Prop :=
  item.type = .tensor ∧ item.destIndex.key = key

instance (item : ReadItem) (key : ShardKey) : Decidable (item.Names key) :=
  inferInstanceAs (Decidable (_ ∧ _))

/-- The keys of `replicas`, in the order in which they are first met. -/
def replicaKeys : List ShardKey :=
  (plans.flatten.filter fun item => item.type = .tensor).foldl (fun keys item =>
    if item.destIndex.key ∈ keys then keys else keys ++ [item.destIndex.key]) []

/-- `tuple(sorted(replicas[key]))`. -/
def groupRanks (key : ShardKey) : List ℕ :=
  (List.range plans.length).filter fun rank => ∃ item ∈ plans.getD rank [], item.Names key

/-- `group_elements[key]`. -/
def groupElements (key : ShardKey) : ℕ :=
  ((plans.flatten.filter fun item => item.Names key).map fun item => item.lengths.prod).sum

/-- `key in unsendable`. -/
def Unsendable (key : ShardKey) : Prop :=
  ∃ item ∈ plans.flatten, item.Names key ∧ item.broadcastable = false

instance (key : ShardKey) : Decidable (Unsendable plans key) :=
  inferInstanceAs (Decidable (∃ item ∈ plans.flatten, _))

/-- An entry of `shards`. -/
structure Shard where
  nbytes : ℕ
  key : ShardKey
  groupRanks : List ℕ
  deriving DecidableEq, Repr

/-- `shards`, the heaviest first; Python's sort is stable. -/
def shards : List Shard :=
  (((replicaKeys plans).filter fun key =>
      1 < (groupRanks plans key).length ∧ ¬ Unsendable plans key).map fun key =>
    ⟨elementSize key.1 * groupElements plans key / (groupRanks plans key).length, key,
      groupRanks plans key⟩).insertionSort fun a b => b.nbytes ≤ a.nbytes

/-- `min(group_ranks, key=lambda rank: (load_bytes[rank], rank))`. -/
def lightestRank (loadBytes : ℕ → ℕ) : List ℕ → ℕ
  | [] => 0
  | rank :: ranks => ranks.foldl (fun best rank =>
      if loadBytes rank < loadBytes best ∨ (loadBytes rank = loadBytes best ∧ rank < best) then rank
      else best) rank

/-- The loop that hands out the shards. -/
def assignSources (loadBytes : ℕ → ℕ) : List Shard → List (ShardKey × BroadcastSource)
  | [] => []
  | shard :: rest =>
      let srcRank := lightestRank loadBytes shard.groupRanks
      (shard.key, ⟨shard.groupRanks, srcRank⟩) ::
        assignSources (Function.update loadBytes srcRank (loadBytes srcRank + shard.nbytes)) rest

/-- `sources`. -/
def sources : List (ShardKey × BroadcastSource) :=
  assignSources (fun _ => 0) (shards elementSize plans)

/-- An item with the decision for its shard. -/
def ReadItem.mark (decided : List (ShardKey × BroadcastSource)) (item : ReadItem) : ReadItem :=
  match decided.lookup item.destIndex.key with
  | some source => { item with source := some source }
  | none => item

/-- `build_global_plan`, for the rank whose plan stands at `rank`. -/
def buildGlobalPlan (broadcastReplicatedTensors : Bool) (rank : ℕ) : List ReadItem :=
  let ownPlan := plans.getD rank []
  if !broadcastReplicatedTensors ∨ plans.length < 2 then ownPlan
  else ownPlan.map (ReadItem.mark (sources elementSize plans))

/-- The plans as a rank sees them in `load`: its own in full, the others' identities. -/
def gathered (rank : ℕ) : List (List ReadItem) :=
  (plans.map identity).set rank (plans.getD rank [])

end Global

/-! ### Filling the chunks -/

section Fill

variable {α : Type*}

/-- `acquire_tensor` on a chunk and `_validate_and_copy_tensor`: what was read has to have the
shape of the slice the item names. `cast` is what `copy_` makes of an element. -/
def copyInto (cast : α → α) (sizes : List ℕ) (req : ReadItem) (tensor : FetchedTensor α)
    (data : List ℕ → α) :
    Except ReadError (List ℕ → α) :=
  let target := narrowShape sizes req.destOffsets req.lengths
  if target ≠ tensor.shape then .error (.mismatchSizes req.storageIndex target tensor.shape)
  else .ok fun x =>
    if x ∈ Box.points (Box.ofSizes req.destOffsets target) then
      cast (tensor.get (List.zipWith (· - ·) x req.destOffsets))
    else data x

/-- The reads of one chunk, one after the other, into what it holds. -/
def readInto (cast : α → α) (saved : SavedTensor α) (sizes : List ℕ) (reqs : List ReadItem)
    (data : List ℕ → α) : Except ReadError (List ℕ → α) :=
  reqs.foldlM (fun data req => do
    let tensor ← saved.fetchTensor req
    copyInto cast sizes req tensor data) data

/-- What a broadcast leaves in a buffer: the elements of the sent one in row-major order. -/
def received (sent own : List ℕ) (data : List ℕ → α) (x : List ℕ) : α :=
  data (MixedRadix.digits sent (MixedRadix.ofDigits own x))

/-- The slice of a chunk that a read fills. -/
def slice (sizes : List ℕ) (req : ReadItem) : Set (List ℕ) :=
  Box.points (Box.ofSizes req.destOffsets (narrowShape sizes req.destOffsets req.lengths))

instance (sizes : List ℕ) (req : ReadItem) (x : List ℕ) : Decidable (x ∈ slice sizes req) :=
  inferInstanceAs (Decidable (x ∈ Box.points _))

/-- The ranks of a load: their destinations, the reads of their local plans, what their chunks hold
before, and what `copy_` into a buffer of a dtype makes of an element.  A rank has one entry for a
name, and its chunks start at different offsets. -/
structure LoadWorld (α : Type*) where
  checkpoint : StoredState α
  allowPartialLoad : Bool
  destinations : List (List Destination)
  plans : List (List ReadItem)
  held : ℕ → ShardKey → List ℕ → α
  cast : String → α → α
  fqn_eq : ∀ fqn t, checkpoint fqn = some (.tensor t) → t.fqn = fqn
  nodup_fqns : ∀ dests ∈ destinations, (dests.map Destination.fqn).Nodup
  nodup_offsets : ∀ dests ∈ destinations, ∀ dest ∈ dests,
    (dest.chunks.map ChunkStorageMetadata.offsets).Nodup
  isChunkOf : ∀ dests ∈ destinations, ∀ dest ∈ dests, ∀ chunk ∈ dest.chunks,
    chunk.IsChunkOf dest.size
  planned : List.Forall₂ (fun dests plan => buildLocalPlan checkpoint allowPartialLoad dests =
    .ok plan) destinations plans

namespace LoadWorld

variable (w : LoadWorld α)

/-- The entry of a rank under a name. -/
def destination? (rank : ℕ) (fqn : String) : Option Destination :=
  (w.destinations.getD rank []).find? fun dest => dest.fqn = fqn

/-- The chunk of a rank that a key names. -/
def chunk? (rank : ℕ) (key : ShardKey) : Option ChunkStorageMetadata :=
  (w.destination? rank key.1).bind fun dest => dest.chunks.find? fun chunk => chunk.offsets = key.2

/-- The dtype of the buffer of a rank under a name. -/
def dtype? (rank : ℕ) (fqn : String) : Option String :=
  (w.destination? rank fqn).map Destination.dtype

/-- `copy_` into a buffer of a rank. -/
def copied (rank : ℕ) (fqn : String) : α → α := ((w.dtype? rank fqn).map w.cast).getD id

/-- The reads of a rank for a shard. -/
def reads (rank : ℕ) (key : ShardKey) : List ReadItem :=
  (w.plans.getD rank []).filter fun item => item.Names key

/-- A chunk after its rank has read it from storage. -/
def ownRead (rank : ℕ) (key : ShardKey) : Except ReadError (List ℕ → α) :=
  match w.checkpoint key.1, w.chunk? rank key with
  | some (.tensor t), some chunk =>
      readInto (w.copied rank key.1) t.toSavedTensor chunk.sizes (w.reads rank key)
        (w.held rank key)
  | _, _ => .ok (w.held rank key)

/-- Bytes of one element of a tensor. -/
def elementSize (fqn : String) : ℕ :=
  match w.checkpoint fqn with
  | some (.tensor t) => dtypeElementSize (some t.properties.dtype)
  | _ => dtypeElementSize none

/-- What a rank decides in `build_global_plan`. -/
def decision (rank : ℕ) : List (ShardKey × BroadcastSource) :=
  sources w.elementSize (gathered w.plans rank)

/-- The plan a rank executes. -/
def finalPlan (rank : ℕ) : List ReadItem :=
  buildGlobalPlan w.elementSize (gathered w.plans rank) true rank

/-- The source of a shard in the plan of a rank: `items[0].source`. -/
def source? (rank : ℕ) (key : ShardKey) : Option BroadcastSource :=
  ((w.finalPlan rank).filter fun item => item.Names key).head?.bind ReadItem.source

/-- A chunk after the broadcast load: a shard that is shared comes from its source. -/
def loaded (rank : ℕ) (key : ShardKey) : Except ReadError (List ℕ → α) :=
  match w.source? rank key with
  | none => w.ownRead rank key
  | some source =>
      if source.srcRank = rank then w.ownRead rank key
      else do
        let data ← w.ownRead source.srcRank key
        if w.dtype? source.srcRank key.1 ≠ w.dtype? rank key.1 then
          .error (.bufferDtypes (w.dtype? source.srcRank key.1) (w.dtype? rank key.1))
        else
          match w.chunk? source.srcRank key, w.chunk? rank key with
          | some sent, some own => return received sent.sizes own.sizes data
          | _, _ => return w.held rank key

end LoadWorld

end Fill

/-! ### What a broadcast load has to do -/

/-- Where a read takes its data from and where it puts it. -/
def ReadItem.request (item : ReadItem) : List ℕ × MetadataIndex × List ℕ × List ℕ :=
  (item.destOffsets, item.storageIndex, item.storageOffsets, item.lengths)

/-- A broadcast load fills the chunks as the ranks' own reads would. -/
structure LoadWorld.BroadcastsCorrectly {α : Type*} (w : LoadWorld α) : Prop where
  sameDecision : ∀ rank < w.plans.length, ∀ rank' < w.plans.length,
    w.decision rank = w.decision rank'
  sourceInGroup : ∀ rank < w.plans.length, ∀ key source,
    (w.decision rank).lookup key = some source → source.srcRank ∈ source.groupRanks
  sameRequests : ∀ rank < w.plans.length, ∀ key source,
    (w.decision rank).lookup key = some source → ∀ member ∈ source.groupRanks,
      (w.chunk? member key).map ChunkStorageMetadata.sizes =
        (w.chunk? source.srcRank key).map ChunkStorageMetadata.sizes ∧
      (w.reads member key).map ReadItem.request =
        (w.reads source.srcRank key).map ReadItem.request
  sameData : ∀ rank < w.plans.length, ∀ key chunk data, w.chunk? rank key = some chunk →
    w.ownRead rank key = .ok data → ∃ data', w.loaded rank key = .ok data' ∧
      ∀ x ∈ Box.localPoints chunk.sizes, data' x = data x

/-- Ranks that read the same name at the same offsets, with no rank's read of it marked as not
broadcastable, want chunks of the same sizes; and where they can be read, the buffers have one dtype
and held the same wherever nothing is read into them. -/
def LoadWorld.SameShards {α : Type*} (w : LoadWorld α) : Prop :=
  ∀ key, (∀ plan ∈ w.plans, ∀ item ∈ plan, item.Names key → item.broadcastable = true) →
    ∀ rank < w.plans.length, ∀ rank' < w.plans.length,
      (∃ item ∈ w.plans.getD rank [], item.Names key) →
      (∃ item ∈ w.plans.getD rank' [], item.Names key) →
      (w.chunk? rank key).map ChunkStorageMetadata.sizes =
          (w.chunk? rank' key).map ChunkStorageMetadata.sizes ∧
        ∀ chunk, w.chunk? rank key = some chunk → (∃ data, w.ownRead rank key = .ok data) →
          w.dtype? rank key.1 = w.dtype? rank' key.1 ∧
          ∀ x ∈ Box.localPoints chunk.sizes, (∀ req ∈ w.reads rank key, x ∉ slice chunk.sizes req) →
            w.held rank key x = w.held rank' key x

end HyperParallel.Checkpoint

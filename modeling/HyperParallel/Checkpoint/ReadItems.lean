import HyperParallel.Lib.Box
import HyperParallel.Checkpoint.Metadata

/-!
# Reading a tensor back from the chunks it was saved in

`create_read_items_for_chunk_list` of `standard_planner.py`, `chunk_to_area`,
`infer_intersection` and `narrow_tensor_by_index` of `utils.py`, and the reading side of
`filesystem_storage.py` for one tensor.

* `createReadItemsForChunkList`: one read for every overlap of a local and a saved chunk;
* `SavedTensor`: the chunks of a tensor as a save left them in its files, with
  `finalizeCheckpoint`, the lookup the metadata holds for them;
* `fetchTensor`, `applyFetched`, `executeRead`: what a rank does with its reads;
* `LoadsCorrectly`: the local chunks end with the saved tensor.
-/

namespace HyperParallel.Checkpoint

/-! ### The read items -/

/-- What the code raises on this path. -/
inductive ReadError
  /-- `ValueError`: `Area dimension mismatch: {a} vs {b}` -/
  | areaMismatch (a b : ℕ)
  /-- `KeyError`: `StorageInfo not found for index {index}` -/
  | noStorageInfo (index : MetadataIndex)
  /-- safetensors: `File does not contain tensor {key}` -/
  | noTensor (relativePath key : String)
  /-- `AssertionError`: `req {index} mismatch sizes {target} vs {tensor}` -/
  | mismatchSizes (index : MetadataIndex) (target tensor : List ℕ)
  /-- the read names no local chunk of this rank -/
  | noLocalChunk (index : MetadataIndex)
  /-- a broadcast between buffers of different dtypes, which no backend promises to carry out -/
  | bufferDtypes (sent own : Option String)
  deriving DecidableEq, Repr

/-- `chunk_to_area`. -/
def chunkToArea (chunk : ChunkStorageMetadata) : List (ℕ × ℕ) :=
  Box.ofSizes chunk.offsets chunk.sizes

/-- The loop of `infer_intersection` over the dimensions. -/
def intersectRanges : List (ℕ × ℕ) → List (ℕ × ℕ) → Option (List (ℕ × ℕ))
  | a :: areaA, b :: areaB =>
      let left := max a.1 b.1
      let right := min a.2 b.2
      if left ≥ right then none else (intersectRanges areaA areaB).map ((left, right) :: ·)
  | _, _ => some []

/-- `infer_intersection`. -/
def inferIntersection (areaA areaB : List (ℕ × ℕ)) : Except ReadError (Option (List (ℕ × ℕ))) :=
  if areaA.length ≠ areaB.length then .error (.areaMismatch areaA.length areaB.length)
  else .ok (intersectRanges areaA areaB)

/-- The read of one overlap: the body of the inner loop below. -/
def readItem (fqn : String) (broadcastable : Bool) (localIdx : ℕ)
    (localChunk : ChunkStorageMetadata) (storageIdx : ℕ) (storageChunk : ChunkStorageMetadata)
    (overlap : List (ℕ × ℕ)) : ReadItem where
  type := .tensor
  destIndex := ⟨fqn, localChunk.offsets, some localIdx⟩
  destOffsets := Box.relative overlap localChunk.offsets
  storageIndex := ⟨fqn, storageChunk.offsets, some storageIdx⟩
  storageOffsets := Box.relative overlap storageChunk.offsets
  lengths := Box.lengths overlap
  broadcastable := broadcastable

/-- `create_read_items_for_chunk_list`. -/
def createReadItemsForChunkList (fqn : String) (savedChunks localChunks : List ChunkStorageMetadata)
    (broadcastable : Bool := true) : Except ReadError (List ReadItem) :=
  if localChunks = [] ∨ savedChunks = [] then .ok []
  else do
    let items ← localChunks.zipIdx.mapM fun (localChunk, localIdx) =>
      savedChunks.zipIdx.mapM fun (storageChunk, storageIdx) => do
        let overlap ← inferIntersection (chunkToArea localChunk) (chunkToArea storageChunk)
        return overlap.map (readItem fqn broadcastable localIdx localChunk storageIdx storageChunk)
    return items.flatten.filterMap id

/-! ### Tensors and files -/

/-- A dense tensor as a slice reads it: its shape and its element at every coordinate. -/
structure FetchedTensor (α : Type*) where
  shape : List ℕ
  get : List ℕ → α

/-- The shape of `tensor[slice(off, off + len), ...]`: a slice stops at the end of its
dimension, and dimensions without a slice are kept. -/
def narrowShape : List ℕ → List ℕ → List ℕ → List ℕ
  | n :: shape, off :: offsets, len :: lengths =>
      (min n (off + len) - min n off) :: narrowShape shape offsets lengths
  | shape, _, _ => shape

/-- The coordinate in the tensor of a coordinate in `tensor[slice(off, off + len), ...]`. -/
def narrowIndex : List ℕ → List ℕ → List ℕ
  | off :: offsets, t :: x => (off + t) :: narrowIndex offsets x
  | _, x => x

/-- `narrow_tensor_by_index`, and the slice of a stored tensor: without slices the whole tensor
is taken. -/
def FetchedTensor.narrow {α : Type*} (tensor : FetchedTensor α) (offsets lengths : List ℕ) :
    FetchedTensor α :=
  if offsets = [] ∨ lengths = [] then tensor
  else ⟨narrowShape tensor.shape offsets lengths, fun x => tensor.get (narrowIndex offsets x)⟩

/-- A chunk as the save left it: what the metadata says of it, where it is, and its data. -/
structure SavedChunk (α : Type*) where
  chunk : ChunkStorageMetadata
  storageData : StorageInfo
  tensor : FetchedTensor α
  shape_eq : tensor.shape = chunk.sizes

/-- The name of a tensor inside its file: `storage_info.tensor_key or fqn`. -/
def tensorKey (info : StorageInfo) (fqn : String) : String :=
  match info.tensorKey with
  | some key => if key = "" then fqn else key
  | none => fqn

/-- A tensor as the save left it: its chunks in the order in which their write results were
gathered, no two of them in one place. -/
structure SavedTensor (α : Type*) where
  fqn : String
  chunks : List (SavedChunk α)
  nodup : (chunks.map fun c =>
    (c.storageData.relativePath, tensorKey c.storageData fqn)).Nodup

/-- `finalize_checkpoint`: the storage data of the metadata, every result overwriting the
earlier ones of its index. -/
def finalizeCheckpoint (results : List WriteResult) (index : MetadataIndex) : Option StorageInfo :=
  results.foldl (fun storageMd wr => if wr.index.key = index.key then some wr.storageData
    else storageMd) none

namespace SavedTensor

variable {α : Type*} (saved : SavedTensor α)

/-- `TensorStorageMetadata.chunks`. -/
def metadataChunks : List ChunkStorageMetadata := saved.chunks.map SavedChunk.chunk

/-- The write results of the tensor: a chunk is indexed by its position in the metadata. -/
def writeResults : List WriteResult :=
  saved.chunks.zipIdx.map fun (c, ordinal) =>
    ⟨⟨saved.fqn, c.chunk.offsets, some ordinal⟩, c.storageData⟩

/-- The tensor of a given name in a checkpoint file. -/
def file (relativePath key : String) : Option (FetchedTensor α) :=
  (saved.chunks.find? fun c => c.storageData.relativePath = relativePath ∧
    tensorKey c.storageData saved.fqn = key).map SavedChunk.tensor

/-! ### Executing the reads -/

/-- The stored tensor a storage index leads to: `_get_storage_info`, and the tensor of that name
in the file it names. -/
def storedTensor (index : MetadataIndex) : Except ReadError (FetchedTensor α) :=
  match finalizeCheckpoint saved.writeResults index with
  | none => .error (.noStorageInfo index)
  | some info =>
      match saved.file info.relativePath (tensorKey info index.fqn) with
      | none => .error (.noTensor info.relativePath (tensorKey info index.fqn))
      | some tensor => .ok tensor

/-- `_fetch_tensor_file` for one item. -/
def fetchTensor (req : ReadItem) : Except ReadError (FetchedTensor α) := do
  let tensor ← saved.storedTensor req.storageIndex
  return tensor.narrow req.storageOffsets req.lengths

/-- The local chunks while they are loaded: `none` is an element nothing was written to. -/
abbrev Buffers (α : Type*) := ℕ → List ℕ → Option α

/-- `_validate_and_copy_tensor`: the destination is the slice of the local chunk the item names,
and what was read has to have its shape. -/
def applyFetched (localChunks : List ChunkStorageMetadata) (req : ReadItem) (tensor : FetchedTensor α)
    (buffers : Buffers α) : Except ReadError (Buffers α) :=
  match req.destIndex.index.bind fun k => (localChunks[k]?).map ((k, ·)) with
  | none => .error (.noLocalChunk req.destIndex)
  | some (k, localChunk) =>
      let target := narrowShape localChunk.sizes req.destOffsets req.lengths
      if target ≠ tensor.shape then .error (.mismatchSizes req.storageIndex target tensor.shape)
      else .ok fun k' x =>
        if k' = k ∧ x ∈ Box.points (Box.ofSizes req.destOffsets target) then
          some (tensor.get (List.zipWith (· - ·) x req.destOffsets))
        else buffers k' x

/-- The reads of one tensor, one after the other. -/
def executeRead (localChunks : List ChunkStorageMetadata) (reqs : List ReadItem) :
    Except ReadError (Buffers α) :=
  reqs.foldlM (fun buffers req => do
    let tensor ← saved.fetchTensor req
    applyFetched localChunks req tensor buffers) fun _ _ => none

/-- Loading the local chunks restores the global tensor `G`: every slice stays inside the stored
and the local chunk, and in whatever order the reads are carried out, each local chunk ends with
its part of `G`, every element written and nothing outside it. -/
structure LoadsCorrectly (localChunks : List ChunkStorageMetadata) (G : List ℕ → α) : Prop where
  inside : ∀ reqs, createReadItemsForChunkList saved.fqn saved.metadataChunks localChunks =
    .ok reqs → ∀ req ∈ reqs,
      (∃ tensor, saved.storedTensor req.storageIndex = .ok tensor ∧
        Box.Within (Box.ofSizes req.storageOffsets req.lengths) tensor.shape) ∧
      ∃ k localChunk, req.destIndex.index = some k ∧ localChunks[k]? = some localChunk ∧
        Box.Within (Box.ofSizes req.destOffsets req.lengths) localChunk.sizes
  loaded : ∃ reqs, createReadItemsForChunkList saved.fqn saved.metadataChunks localChunks =
    .ok reqs ∧ ∀ order, order.Perm reqs → ∃ buffers,
      saved.executeRead localChunks order = .ok buffers ∧ ∀ k x, buffers k x =
        (localChunks[k]?).bind fun localChunk =>
          if x ∈ Box.localPoints localChunk.sizes then some (G (Box.shift localChunk.offsets x))
          else none

/-- The chunk a lookup of the given start offsets arrives at: the one written last. -/
def lastAt (offsets : List ℕ) : Option (SavedChunk α) :=
  saved.chunks.reverse.find? fun c => c.chunk.offsets = offsets

end SavedTensor

/-- A chunk of a tensor of the given shape. -/
structure ChunkStorageMetadata.IsChunkOf (chunk : ChunkStorageMetadata) (shape : List ℕ) :
    Prop where
  length_offsets : chunk.offsets.length = shape.length
  length_sizes : chunk.sizes.length = shape.length
  within : Box.Within (chunkToArea chunk) shape

end HyperParallel.Checkpoint

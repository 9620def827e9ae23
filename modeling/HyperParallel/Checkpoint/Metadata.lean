import Mathlib.Algebra.Ring.Nat
import Mathlib.Data.Int.Notation
import Mathlib.Tactic.Common

/-!
# Checkpoint metadata and plan items

`distributed_checkpoint/metadata.py`, `planner.py` and `storage.py`: the records save and load
plans are made of.

* `MetadataIndex` with `MetadataIndex.key`, what Python compares and hashes of it;
* `ChunkStorageMetadata`, `TensorProperties`, `dtypeElementSize`;
* `WriteItem` and `WriteItem.tensorStorageSize`, `ReadItem`, `StorageInfo`, `WriteResult`.
-/

namespace HyperParallel.Checkpoint

/-- `MetadataIndex`. -/
structure MetadataIndex where
  fqn : String
  offset : List ℕ := []
  index : Option ℕ := none
  deriving DecidableEq, Repr

/-- The identity of an index, for `__eq__` and `__hash__`: `index` is not part of it. -/
def MetadataIndex.key (i : MetadataIndex) : String × List ℕ := (i.fqn, i.offset)

/-- `ChunkStorageMetadata`: offsets and sizes of a chunk in the global tensor. -/
structure ChunkStorageMetadata where
  offsets : List ℕ
  sizes : List ℕ
  deriving DecidableEq, Repr

/-- `TensorProperties`. -/
structure TensorProperties where
  dtype : String
  requiresGrad : Bool := false
  memoryFormat : Option String := none
  deriving DecidableEq, Repr

/-- `_DTYPE_ELEMENT_SIZES`, in the order in which the names are tried. -/
def dtypeElementSizes : List (String × ℕ) :=
  [("bfloat16", 2), ("float16", 2), ("float32", 4), ("float64", 8), ("int8", 1), ("int16", 2),
    ("int32", 4), ("int64", 8), ("bool", 1)]

/-- `DEFAULT_DTYPE_ELEMENT_SIZE`. -/
def defaultDtypeElementSize : ℕ := 4

/-- Python's `needle in haystack` on strings. -/
def isSubstring (needle haystack : String) : Bool :=
  haystack.toList.tails.any fun tail => needle.toList.isPrefixOf tail

/-- `dtype_element_size`: bytes of one element, the first known name that occurs in `dtype`. -/
def dtypeElementSize : Option String → ℕ
  | none => defaultDtypeElementSize
  | some dtype =>
      ((dtypeElementSizes.find? fun entry => isSubstring entry.1 dtype.toLower).map
        Prod.snd).getD defaultDtypeElementSize

/-- `WriteItem.tensor_data`. -/
structure TensorData where
  chunk : ChunkStorageMetadata
  properties : TensorProperties
  size : List ℕ
  deriving DecidableEq, Repr

/-- `WriteItem`, with its `type`: the data of a tensor, or bytes. -/
inductive WriteData
  | tensor (data : TensorData)
  | byteIo
  deriving DecidableEq, Repr

/-- `WriteItem`. -/
structure WriteItem where
  index : MetadataIndex
  data : WriteData
  deriving DecidableEq, Repr

/-- `WriteItem.tensor_storage_size`. -/
def WriteItem.tensorStorageSize (item : WriteItem) : Option ℕ :=
  match item.data with
  | .tensor data => some (data.chunk.sizes.prod * dtypeElementSize (some data.properties.dtype))
  | .byteIo => none

/-- `LoadItemType`. -/
inductive LoadItemType
  | tensor
  | byteIo
  deriving DecidableEq, Repr

/-- `BroadcastSource`: who reads a shard that several ranks load, and who is sent it. -/
structure BroadcastSource where
  groupRanks : List ℕ
  srcRank : ℕ
  deriving DecidableEq, Repr

/-- `ReadItem`. -/
structure ReadItem where
  type : LoadItemType
  destIndex : MetadataIndex
  destOffsets : List ℕ
  storageIndex : MetadataIndex
  storageOffsets : List ℕ
  lengths : List ℕ
  broadcastable : Bool := true
  source : Option BroadcastSource := none
  deriving DecidableEq, Repr

/-- `StorageInfo`: the file a write went to and, for a tensor, its name in that file. -/
structure StorageInfo where
  relativePath : String
  offset : ℕ
  length : ℤ
  tensorKey : Option String := none
  deriving DecidableEq, Repr

/-- `WriteResult`. -/
structure WriteResult where
  index : MetadataIndex
  storageData : StorageInfo
  deriving DecidableEq, Repr

end HyperParallel.Checkpoint

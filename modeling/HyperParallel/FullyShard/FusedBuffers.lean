import HyperParallel.Lib.Chunks
import HyperParallel.Lib.ExceptList
import HyperParallel.Lib.FlatBuffer

/-!
# Fused communication buffers

`AllGatherBucket`, `all_gather_copy_in` and `reduce_scatter_copy_in` of
`core/fully_shard/param_group.py`.

* `fusedInput`, `gathered`: the inputs of the ranks on both paths, and what they gather;
* `copyOut`: the unsharded buffers, on the path for dim 0 and on the mixed one;
* `reduceScatterCopyIn`, `reduceScatter`: the packed gradients, and the sum that reaches a rank;
* `paramOffsets`, `paramNumels`: where every parameter finds its part of it.
-/

namespace HyperParallel.FullyShard

variable {α : Type}

/-- The split size of `torch.chunk`. -/
def chunkSize (size worldSize : ℕ) : ℕ := (size + worldSize - 1) / worldSize

/-- The size of the chunk of a rank, which is empty behind the last one. -/
def shardSizeOf (origSize : List ℕ) (dim worldSize rank : ℕ) : List ℕ :=
  let size := origSize.getD dim 0
  origSize.set dim (min (chunkSize size worldSize) (size - rank * chunkSize size worldSize))

/-- What the fused buffers read of an `HSDPParamV2`, with the shards of all ranks.
`_init_shard_placements` refuses uneven shards of other dims than 0; `offloaded` stands for
`offload_to_cpu` and meta parameters. -/
structure FusedParam (α : Type) [Zero α] (worldSize : ℕ) where
  origSize : List ℕ
  dim : ℕ
  storageDtype : ℕ
  offloaded : Bool
  shard : ℕ → Tensor α
  dim_lt : dim < origSize.length
  even : dim ≠ 0 → worldSize ∣ origSize.getD dim 0
  shape_shard : ∀ rank, (shard rank).shape = shardSizeOf origSize dim worldSize rank

section Definitions

variable [Zero α] {worldSize : ℕ} (p : FusedParam α worldSize)

namespace FusedParam

/-- `padded_sharded_param_size` -/
def paddedShardedParamSize : List ℕ :=
  p.origSize.set p.dim (chunkSize (p.origSize.getD p.dim 0) worldSize)

def numel : ℕ := p.paddedShardedParamSize.prod

/-- `new_zeros(padded_sharded_param_size)` with the shard copied into it. -/
def paddedShard (rank : ℕ) : Tensor α :=
  Tensor.ofEntries p.paddedShardedParamSize (p.shard rank).entry

/-- `_sharded_param_data` -/
def shardedParamData (rank : ℕ) : List α :=
  if (p.shard rank).shape = p.paddedShardedParamSize then (p.shard rank).data
  else (p.paddedShard rank).data

/-- `all_gather_inputs`, in the dtype of the bucket. -/
def allGatherInput (cast : ℕ → α → α) (rank : ℕ) : List α :=
  (p.shardedParamData rank).map (cast p.storageDtype)

end FusedParam

/-! ### The input of a rank -/

/-- `all_gather_copy_in`: the input of a rank inside of the output. -/
def allGatherCopyIn (inputs : List (List α)) (output : List α) (splitSizes : List ℕ)
    (numel rank : ℕ) : Option (List α × List α) :=
  if output.length < numel * rank + numel ∨ splitSizes.sum ≠ numel ∨
      inputs.map List.length ≠ splitSizes then none
  else
    let output := FlatBuffer.writeAll output (numel * rank) inputs
    some (FlatBuffer.narrow output (numel * rank) numel, output)

/-- `init_flat_param_buffer`; no buffer where the zero-copy path does not apply. -/
def initFlatParamBuffer (params : List (FusedParam α worldSize)) (rank : ℕ) (empty : ℕ → α) :
    Option (List α) :=
  if (∃ p ∈ params, ∃ q ∈ params.head?, p.storageDtype ≠ q.storageDtype) ∨
      ∃ p ∈ params, p.offloaded = true then none
  else
    let data := params.map fun p => p.shardedParamData rank
    some (FlatBuffer.writeAll ((List.range (data.map List.length).sum).map empty) 0 data)

/-- `total_input_numel` -/
def totalInputNumel (params : List (FusedParam α worldSize)) : ℕ :=
  (params.map FusedParam.numel).sum

/-- The input that `foreach_all_gather` chooses; `empty` is what allocated buffers hold. -/
def fusedInput (zeroCopy : Bool) (cast : ℕ → α → α) (params : List (FusedParam α worldSize))
    (rank : ℕ) (empty : ℕ → α) : Option (List α) :=
  let flatParamBuffer := if zeroCopy then initFlatParamBuffer params rank empty else none
  match flatParamBuffer with
  | some buffer => some (buffer.map (cast ((params.head?.map FusedParam.storageDtype).getD 0)))
  | none =>
    let inputs := params.map fun p => p.allGatherInput cast rank
    (allGatherCopyIn inputs ((List.range (totalInputNumel params * worldSize)).map empty)
      (inputs.map List.length) (totalInputNumel params) rank).map Prod.fst

/-- `all_gather_into_tensor` -/
def gathered (zeroCopy : ℕ → Bool) (cast : ℕ → α → α) (params : List (FusedParam α worldSize))
    (empty : ℕ → ℕ → α) : Option (List α) :=
  ((List.range worldSize).mapM fun rank =>
    fusedInput (zeroCopy rank) cast params rank (empty rank)).map List.flatten

/-! ### The unsharded buffers -/

/-- `view(world_size, -1)` -/
def viewRows (worldSize : ℕ) (buffer : List α) : List (List α) :=
  (List.range worldSize).map fun row =>
    FlatBuffer.narrow buffer (row * (buffer.length / worldSize)) (buffer.length / worldSize)

/-- `narrow(1, offset, numel)` -/
def narrowColumns (rows : List (List α)) (offset numel : ℕ) : List (List α) :=
  rows.map fun row => FlatBuffer.narrow row offset numel

/-- `split_with_sizes_copy` along dim 1. -/
def splitWithSizes (rows : List (List α)) (sizes : List ℕ) : Option (List (List α)) :=
  if ∃ row ∈ rows, row.length ≠ sizes.sum then none
  else some (((FlatBuffer.offsets 0 sizes).zip sizes).map fun place =>
    (narrowColumns rows place.1 place.2).flatten)

/-- The copy of a parameter with another dim than 0 on a rank. -/
def unpackColumns (rank : ℕ) (gatheredParam : List α) : Option (List α) := do
  let shardedSize := shardSizeOf p.origSize p.dim worldSize rank
  let packed ← Tensor.ofData (shardedSize.set 0 (shardedSize.getD 0 0 * worldSize)) gatheredParam
  let full ← Tensor.catAlong (packed.chunkAlong worldSize 0) p.dim
  if full.shape = p.origSize then some full.data else none

/-- The loop of the mixed path. -/
def copyColumns (rank : ℕ) (rows : List (List α)) (columnOffset : ℕ) :
    List (FusedParam α worldSize) → Option (List (List α))
  | [] => if ∃ row ∈ rows, row.length ≠ columnOffset then none else some []
  | p :: params => do
    let gatheredParam := (narrowColumns rows columnOffset p.numel).flatten
    let buffer ← if p.dim = 0 then some gatheredParam else unpackColumns p rank gatheredParam
    let buffers ← copyColumns rank rows (columnOffset + p.numel) params
    some (buffer :: buffers)

/-- `AllGatherBucket.copy_out` on a rank. -/
def copyOut (params : List (FusedParam α worldSize)) (rank : ℕ) (output : List α) :
    Option (List (List α)) :=
  let rows := viewRows worldSize output
  if ∀ p ∈ params, p.dim = 0 then splitWithSizes rows (params.map FusedParam.numel)
  else copyColumns rank rows 0 params

/-! ### Gradients -/

namespace FusedParam

/-- The shard of a gradient for a rank, padded with zeros. -/
def gradShard (grad : Tensor α) (rank : ℕ) : Tensor α :=
  Tensor.ofEntries p.paddedShardedParamSize fun idx =>
    grad.entry (idx.set p.dim
      (rank * p.paddedShardedParamSize.getD p.dim 0 + idx.getD p.dim 0))

/-- The rows of a gradient in the packed buffer: `_chunk_cat` pads for dim 0. -/
def packGrad (grad : Tensor α) : Option (List (List α)) :=
  if p.dim = 0 then some ((List.range worldSize).map fun row => (p.gradShard grad row).data)
  else (Tensor.catAlong (grad.chunkAlong worldSize p.dim) 0).map fun packed =>
    viewRows worldSize packed.data

end FusedParam

/-- The loop of `reduce_scatter_copy_in`. -/
def packGrads (packedRows : List (List α)) (columnOffset : ℕ) :
    List (FusedParam α worldSize × Tensor α) → Option (List (List α))
  | [] => if ∃ row ∈ packedRows, row.length ≠ columnOffset then none else some packedRows
  | (p, grad) :: rest => do
    let slot ← p.packGrad grad
    if (∃ row ∈ packedRows, row.length < columnOffset + p.numel) ∨
        ∃ piece ∈ slot, piece.length ≠ p.numel then none
    else packGrads (List.zipWith (fun row piece => FlatBuffer.write row columnOffset piece)
      packedRows slot) (columnOffset + p.numel) rest

/-- `reduce_scatter_copy_in` -/
def reduceScatterCopyIn (params : List (FusedParam α worldSize)) (unshardedGrads : List (Tensor α))
    (reduceScatterInput : List α) : Option (List α) :=
  if params.length ≠ unshardedGrads.length then none
  else (packGrads (viewRows worldSize reduceScatterInput) 0 (params.zip unshardedGrads)).map
    List.flatten

/-- `param_numels` and `param_offsets` of a bucket. -/
def paramNumels (params : List (FusedParam α worldSize)) : List ℕ := params.map FusedParam.numel

def paramOffsets (params : List (FusedParam α worldSize)) : List ℕ :=
  FlatBuffer.offsets 0 (paramNumels params)

end Definitions

/-- `reduce_scatter_tensor` with a sum: what reaches a rank. -/
def reduceScatter [AddCommMonoid α] (worldSize numel : ℕ) (input : ℕ → List α) (rank : ℕ) :
    List α :=
  (List.range numel).map fun i => ((List.range worldSize).map fun source =>
    (FlatBuffer.narrow (input source) (rank * numel) numel).getD i 0).sum

end HyperParallel.FullyShard
